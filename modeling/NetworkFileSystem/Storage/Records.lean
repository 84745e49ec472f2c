import NetworkFileSystem.Storage.Appends
import NetworkFileSystem.Storage.Visibility

/-!
# Every write is in the file once

`storage_server.c:38–202,204–282,322–336`. Writes and `cat`s of one path run side by side, and
each write has a stream of its own. What the file has in the end is what it had at first and one
record for every write that has closed its stream, in the order in which they did: no record is
lost, doubled or mixed up with another one. The locks are not needed for that, and two requests
that make an entry each for the path do no harm.
-/

namespace NetworkFileSystem.Storage

open Base Lock Protocol Prog

/-- What a request appends to its file: the data and a newline, or what an asynchronous write
makes of the array on its stack. -/
def Request.Appends : Request → Text → Prop
  | .writeSync buffer, text => ∃ data, (tokens bar buffer)[2]? = some data ∧ text = data ++ lit "\n"
  | .writeAsync buffer, text => ∃ data array blocks, (tokens bar buffer)[4]? = some data ∧
      asyncBlocks array 0 data = some blocks ∧ text = blocks.flatten
  | .cat _, _ | .rm _, _ => False

variable {T : Type}

/-- The table of locks and the file as the environment of requests. -/
def sharedFile [DecidableEq T] :
    SharedEnvironment T SsOp SsOp.Res (List LockStruct × DataFile T) where
  respond := fun t o r w w' ↦ tableRespond o r w.1 w'.1 ∧ fileRespond t o r w.2 w'.2
  silent := fun _ _ ↦ False

/-- The runs of requests on a file with any contents. -/
def SharedRun [DecidableEq T] (requests : T → Request) (contents : Text)
    (log : List (T × SsEvent)) (qs : T → SsProg Unit) (w : List LockStruct × DataFile T) : Prop :=
  Interleaved sharedFile (fun t ↦ (requests t).program) ([], ⟨contents, fun _ ↦ .unopened⟩) log qs w

/-- The requests that have closed their stream, in the order in which they did. -/
def closers (log : List (T × SsEvent)) : List T :=
  log.filterMap (fun x ↦ if x.2.1 = .fclose then some x.1 else none)

theorem closers_concat (log : List (T × SsEvent)) (t : T) (e : SsEvent) :
    closers (log ++ [(t, e)]) = closers log ++ if e.1 = .fclose then [t] else [] := by
  unfold closers
  rw [List.filterMap_append]
  split
  · next h => simp [h]
  · next h => simp [h]

/-! ### The stream of a request -/

/-- A request together with its stream. -/
structure Writer where
  request : Request
  stream : Stream

namespace Writer

open Classical in
/-- A stream is opened once, printed to, and closed with the whole record. -/
noncomputable def next (s : Writer) : SsEvent → Option Writer
  | ⟨.fopen _, true⟩ => if s.stream = .unopened then some { s with stream := .opened [] } else none
  | ⟨.fprintf text, _⟩ =>
    match s.stream with
    | .opened buffered => some { s with stream := .opened (buffered ++ text) }
    | _ => none
  | ⟨.fclose, _⟩ =>
    match s.stream with
    | .opened buffered =>
      if s.request.Appends buffered then some { s with stream := .closed } else none
    | _ => none
  | _ => some s

/-- No stream is left open. -/
def Settled (s : Writer) : Prop := ∀ buffered, s.stream ≠ .opened buffered

end Writer

/-- A program that is in order from `s` and leaves no stream open. -/
private abbrev Records {α : Type} (s : Writer) (p : SsProg α) : Prop :=
  Follows Writer.next (fun _ s' ↦ s'.Settled) s p

section Handlers

variable {α : Type} {s : Writer} {request : Request}

/-- The operations that have nothing to do with streams. -/
private theorem records_other {o : SsOp} {f : o.Res → SsProg α} (h : ∀ r, s.next ⟨o, r⟩ = some s)
    (hf : ∀ r, Records s (f r)) : Records s (perform o >>= f) :=
  follows_step s h hf

private theorem records_lockIndex {path : Text} {f : Nat → SsProg α} (hf : ∀ i, Records s (f i)) :
    Records s (lockIndex path >>= f) := by
  have hindex : Follows Writer.next (fun _ s' ↦ s' = s) s (lockIndex path) := by
    refine follows_call (fun r ↦ ⟨s, rfl, ?_⟩)
    cases r with
    | none => exact fun i ↦ ⟨s, rfl, rfl⟩
    | some i => exact rfl
  exact follows_seq hindex hf

private theorem records_fopen {path : Text} {f : Bool → SsProg α}
    (hopened : Records ⟨request, .opened []⟩ (f true))
    (hfailed : Records ⟨request, .unopened⟩ (f false)) :
    Records ⟨request, .unopened⟩ (perform (.fopen path) >>= f) := by
  refine follows_call (fun r ↦ ?_)
  cases r with
  | true => exact ⟨⟨request, .opened []⟩, by simp [Writer.next], hopened⟩
  | false => exact ⟨_, rfl, hfailed⟩

private theorem records_printBlocks {blocks : List Text} {buffered : Text} {f : Unit → SsProg α}
    (hf : Records ⟨request, .opened (buffered ++ blocks.flatten)⟩ (f ())) :
    Records ⟨request, .opened buffered⟩ (printBlocks blocks >>= f) := by
  induction blocks generalizing buffered with
  | nil =>
    rw [List.flatten_nil, List.append_nil] at hf
    exact hf
  | cons block blocks ih =>
    refine fun r ↦ ⟨⟨request, .opened (buffered ++ block)⟩, rfl, ih ?_⟩
    rwa [List.flatten_cons, ← List.append_assoc] at hf

/-- The stream is closed with the whole record in it. -/
private theorem records_fclose {text : Text} {f : Unit → SsProg α} (h : request.Appends text)
    (hf : Records ⟨request, .closed⟩ (f ())) :
    Records ⟨request, .opened text⟩ (perform .fclose >>= f) :=
  follows_call (fun _ ↦ ⟨_, if_pos h, hf⟩)

private theorem records_sendAckToNm {command : Text} {f : Unit → SsProg α}
    (hf : Records s (f ())) : Records s (sendAckToNm command >>= f) := by
  refine follows_call (fun r ↦ ⟨s, rfl, ?_⟩)
  cases r with
  | false => trivial
  | true => exact hf

private theorem records_writeSync (buffer : Text) :
    Records ⟨.writeSync buffer, .unopened⟩ (Request.writeSync buffer).program := by
  have hend : ∀ {stream : Stream} (buffer2 : Text), (∀ b, stream ≠ .opened b) →
      Records ⟨.writeSync buffer, stream⟩ (do
        let _ ← perform (.send buffer2)
        sendAckToNm buffer) := by
    intro stream buffer2 hstream
    refine records_other (fun _ ↦ rfl) (fun _ ↦ ?_)
    rw [← bind_pure (sendAckToNm buffer)]
    exact records_sendAckToNm hstream
  change Records _ (writeFile buffer >>= _)
  unfold writeFile
  simp only [bind_assoc]
  refine follows_ofOption (fun path _ ↦ records_lockIndex (fun i ↦ ?_))
  refine records_other (fun _ ↦ rfl) (fun _ ↦ records_fopen ?_ ?_)
  · simp only [if_true, bind_assoc]
    refine follows_ofOption (fun data hdata ↦ ?_)
    refine fun _ ↦ ⟨⟨_, .opened ([] ++ (data ++ lit "\n"))⟩, rfl, ?_⟩
    refine records_other (fun _ ↦ rfl) (fun _ ↦ ?_)
    exact records_fclose ⟨data, hdata, rfl⟩ (hend _ (fun _ h ↦ nomatch h))
  · exact hend _ (fun _ h ↦ nomatch h)

private theorem records_writeAsync (buffer : Text) :
    Records ⟨.writeAsync buffer, .unopened⟩ (writeFileAsync buffer) := by
  refine records_other (fun _ ↦ rfl) (fun _ ↦ follows_ofOption (fun path _ ↦ ?_))
  refine records_lockIndex (fun i ↦ records_other (fun _ ↦ rfl) (fun _ ↦ records_fopen ?_ ?_))
  · refine follows_ofOption (fun ip _ ↦ follows_ofOption (fun port _ ↦ ?_))
    refine follows_ofOption (fun data hdata ↦ records_other (fun _ ↦ rfl) (fun array ↦ ?_))
    refine follows_ofOption (fun blocks hblocks ↦ records_printBlocks ?_)
    refine records_other (fun _ ↦ rfl) (fun _ ↦ records_sendAckToNm ?_)
    exact records_fclose ⟨data, array, blocks, hdata, hblocks, rfl⟩ (fun _ h ↦ nomatch h)
  · exact records_other (fun _ ↦ rfl) (fun _ _ h ↦ nomatch h)

private theorem records_sendBlocks {blocks : List Text} {f : Unit → SsProg α}
    (hf : Records s (f ())) : Records s (sendBlocks blocks >>= f) := by
  induction blocks with
  | nil => exact hf
  | cons block blocks ih =>
    refine follows_call (fun r ↦ ⟨s, rfl, ?_⟩)
    cases r with
    | false => exact hf
    | true => exact ih

private theorem records_cat (path : Text) :
    Records ⟨.cat path, .unopened⟩ (Request.cat path).program := by
  have hrelease : ∀ i, Records ⟨.cat path, .unopened⟩ (do
      let _ ← perform (.release .read i)
      pure ()) :=
    fun i ↦ records_other (fun _ ↦ rfl) (fun _ _ h ↦ nomatch h)
  refine records_lockIndex (fun i ↦ records_other (fun _ ↦ rfl) (fun _ ↦ ?_))
  unfold readFile
  rw [bind_assoc]
  refine records_other (fun _ ↦ rfl) (fun r ↦ ?_)
  cases r with
  | some blocks => exact records_sendBlocks (hrelease i)
  | none => exact records_other (fun _ ↦ rfl) (fun _ ↦ hrelease i)

/-- Every write prints its record between opening and closing its stream. -/
theorem records_program {path : Text} {r : Request} (h : r.WritesOrReads path) :
    Records ⟨r, .unopened⟩ r.program := by
  cases r with
  | writeSync buffer => exact records_writeSync buffer
  | writeAsync buffer => exact records_writeAsync buffer
  | cat path' => exact records_cat path'
  | rm path' => exact h.elim

end Handlers

/-! ### Runs -/

section Runs

variable [DecidableEq T] {requests : T → Request} {contents path : Text}
  {log : List (T × SsEvent)} {qs : T → SsProg Unit} {w : List LockStruct × DataFile T}

/-- The streams of the file are those of the requests. -/
private theorem writer_step {st : T → Writer} {d d' : DataFile T} {t : T} {o : SsOp} {r : o.Res}
    {s' : Writer} (hst : ∀ u, st u = ⟨requests u, d.streams u⟩)
    (hs : (st t).next ⟨o, r⟩ = some s') (hr : fileRespond t o r d d') (u : T) :
    Function.update st t s' u = ⟨requests u, d'.streams u⟩ := by
  rw [hst t] at hs
  by_cases hu : u = t
  · subst hu
    rw [Function.update_self]
    cases o with
    | fopen path =>
      cases r with
      | true =>
        obtain rfl := hr
        simp only [Writer.next, Option.ite_none_right_eq_some, Option.some.injEq] at hs
        simp [← hs.2]
      | false =>
        obtain rfl := hr
        exact (Option.some.inj hs).symm
    | fprintf text =>
      obtain ⟨buffered, hopened, rfl⟩ := hr
      simp only [Writer.next, hopened, Option.some.injEq] at hs
      simp [← hs]
    | fclose =>
      obtain ⟨buffered, hopened, rfl⟩ := hr
      simp only [Writer.next, hopened, Option.ite_none_right_eq_some, Option.some.injEq] at hs
      simp [← hs.2]
    | openRead path =>
      rw [hr.2]
      exact (Option.some.inj hs).symm
    | _ =>
      rw [show d' = d from hr]
      exact (Option.some.inj hs).symm
  · rw [Function.update_of_ne hu, hst u]
    have hstreams : d'.streams u = d.streams u := by
      cases o with
      | fopen path =>
        cases r with
        | true =>
          obtain rfl := hr
          exact Function.update_of_ne hu _ _
        | false => rw [show d' = d from hr]
      | fprintf text =>
        obtain ⟨buffered, -, rfl⟩ := hr
        exact Function.update_of_ne hu _ _
      | fclose =>
        obtain ⟨buffered, -, rfl⟩ := hr
        exact Function.update_of_ne hu _ _
      | openRead path => rw [hr.2]
      | _ => rw [show d' = d from hr]
    rw [hstreams]

/-- In every run each request is in order with the stream that the file has for it. -/
private theorem SharedRun.records (h : SharedRun requests contents log qs w)
    (hpath : ∀ t, (requests t).WritesOrReads path) (t : T) :
    Records ⟨requests t, w.2.streams t⟩ (qs t) := by
  obtain ⟨st, hst, hqs⟩ := Interleaved.follows h
    (I := fun st w ↦ ∀ u, st u = ⟨requests u, w.2.streams u⟩)
    (fun t ↦ records_program (hpath t)) (fun _ ↦ rfl) (fun _ _ _ _ hs ↦ hs.elim)
    (fun _ _ _ _ _ _ _ hI hs hr ↦ writer_step hI hs hr.2)
  have ht := (hqs t).1
  rwa [hst t] at ht

/-- What the file holds behind a log, and what the streams say about the log. -/
private structure Recorded (requests : T → Request) (contents : Text)
    (log : List (T × SsEvent)) (d : DataFile T) : Prop where
  stored : ∃ records : List (T × Text), records.map Prod.fst = closers log ∧
    (∀ r ∈ records, (requests r.1).Appends r.2) ∧
    d.contents = contents ++ (records.map Prod.snd).flatten
  nodup : (closers log).Nodup
  closed : ∀ t, t ∈ closers log ↔ d.streams t = .closed
  opened : ∀ t, OpensFile (own t log) ↔ d.streams t ≠ .unopened

/-- An event that neither opens nor closes a stream. -/
private theorem Recorded.keep {d d' : DataFile T} {t : T} {e : SsEvent}
    (h : Recorded requests contents log d) (hcontents : d'.contents = d.contents)
    (hclose : e.1 ≠ .fclose) (hopen : ∀ path, e ≠ ⟨.fopen path, true⟩)
    (hclosed : ∀ u, d'.streams u = .closed ↔ d.streams u = .closed)
    (hunopened : ∀ u, d'.streams u = .unopened ↔ d.streams u = .unopened) :
    Recorded requests contents (log ++ [(t, e)]) d' := by
  have hclosers : closers (log ++ [(t, e)]) = closers log := by
    rw [closers_concat, if_neg hclose, List.append_nil]
  have hopens : ∀ u, OpensFile (own u (log ++ [(t, e)])) ↔ OpensFile (own u log) := by
    intro u
    simp only [OpensFile, mem_own, List.mem_append, List.mem_singleton, Prod.mk.injEq]
    refine exists_congr (fun path ↦ or_iff_left ?_)
    rintro ⟨-, he⟩
    exact hopen path he.symm
  constructor
  · rw [hclosers, hcontents]
    exact h.stored
  · rw [hclosers]
    exact h.nodup
  · intro u
    rw [hclosers, hclosed u]
    exact h.closed u
  · intro u
    rw [hopens u, h.opened u, ne_eq, ne_eq, hunopened u]

private theorem SharedRun.recorded (h : SharedRun requests contents log qs w)
    (hpath : ∀ t, (requests t).WritesOrReads path) : Recorded requests contents log w.2 := by
  induction h with
  | start =>
    exact ⟨⟨[], rfl, (fun _ hr ↦ nomatch hr), by simp⟩, List.nodup_nil, by simp [closers],
      by simp [OpensFile, own]⟩
  | silent _ hs _ => exact hs.elim
  | @step log qs u v t o k r hprev hq hr ih =>
    obtain ⟨-, hfile⟩ := hr
    have hrecords := SharedRun.records hprev hpath t
    rw [hq] at hrecords
    obtain ⟨s', hs', -⟩ := hrecords r
    cases o with
    | fopen path =>
      cases r with
      | false =>
        rw [show v.2 = u.2 from hfile]
        exact ih.keep rfl (by simp) (by simp) (fun _ ↦ Iff.rfl) (fun _ ↦ Iff.rfl)
      | true =>
        simp only [Writer.next, Option.ite_none_right_eq_some] at hs'
        obtain ⟨hunopened, -⟩ := hs'
        rw [show v.2 = _ from hfile]
        have hclosers : closers (log ++ [(t, ⟨SsOp.fopen path, true⟩)]) = closers log := by
          rw [closers_concat, if_neg (by simp), List.append_nil]
        constructor
        · rw [hclosers]
          exact ih.stored
        · rw [hclosers]
          exact ih.nodup
        · intro x
          rw [hclosers, ih.closed x]
          by_cases hx : x = t
          · simp [hx, hunopened]
          · simp [hx]
        · intro x
          rw [own_append, own_singleton, opensFile_append, ih.opened x]
          by_cases hx : x = t
          · subst hx
            simp [OpensFile]
          · simp [hx, Ne.symm hx, OpensFile]
    | fclose =>
      obtain ⟨buffered, hopened, hv⟩ := hfile
      simp only [Writer.next, hopened, Option.ite_none_right_eq_some] at hs'
      obtain ⟨records, howners, happends, hcontents⟩ := ih.stored
      have hclosers : closers (log ++ [(t, ⟨SsOp.fclose, r⟩)]) = closers log ++ [t] := by
        rw [closers_concat, if_pos rfl]
      have hnot : t ∉ closers log := by
        rw [ih.closed t, hopened]
        exact Stream.noConfusion
      rw [hv]
      constructor
      · refine ⟨records ++ [(t, buffered)], ?_, fun x hx ↦ ?_, ?_⟩
        · rw [hclosers, List.map_append, howners, List.map_singleton]
        · rcases List.mem_append.mp hx with hx | hx
          · exact happends x hx
          · rw [List.mem_singleton.mp hx]
            exact hs'.1
        · simp [hcontents]
      · rw [hclosers, List.nodup_append]
        refine ⟨ih.nodup, List.nodup_singleton t, fun x hx y hy hxy ↦ ?_⟩
        rw [List.mem_singleton] at hy
        exact hnot (hy ▸ hxy ▸ hx)
      · intro x
        rw [hclosers, List.mem_append, List.mem_singleton, ih.closed x]
        by_cases hx : x = t
        · simp [hx]
        · simp [hx]
      · intro x
        rw [own_append, own_singleton, opensFile_append, ih.opened x]
        by_cases hx : x = t
        · subst hx
          simp [OpensFile, hopened]
        · simp [hx, Ne.symm hx, OpensFile]
    | fprintf text =>
      obtain ⟨buffered, hopened, hv⟩ := hfile
      rw [hv]
      refine ih.keep rfl (by simp) (by simp) (fun x ↦ ?_) (fun x ↦ ?_)
      · by_cases hx : x = t
        · simp [hx, hopened]
        · simp [hx]
      · by_cases hx : x = t
        · simp [hx, hopened]
        · simp [hx]
    | openRead path =>
      rw [hfile.2]
      exact ih.keep rfl (by simp) (by simp) (fun _ ↦ Iff.rfl) (fun _ ↦ Iff.rfl)
    | _ =>
      rw [show v.2 = u.2 from hfile]
      exact ih.keep rfl (by simp) (by simp) (fun _ ↦ Iff.rfl) (fun _ ↦ Iff.rfl)

/-- In every interleaving of writes and `cat`s of one path, however many entries they make for it,
the file has its old contents and behind them one whole record for every write that has closed its
stream, in the order of closing; a write that has come to its end after opening the file is one of
them. -/
theorem writes_are_appended_once (h : SharedRun requests contents log qs w)
    (hpath : ∀ t, (requests t).WritesOrReads path) :
    (∃ records : List (T × Text), records.map Prod.fst = closers log ∧
      (∀ r ∈ records, (requests r.1).Appends r.2) ∧
      w.2.contents = contents ++ (records.map Prod.snd).flatten) ∧
    (closers log).Nodup ∧
    ∀ t, qs t = .ret () → OpensFile (own t log) → t ∈ closers log := by
  have hrecorded := SharedRun.recorded h hpath
  refine ⟨hrecorded.stored, hrecorded.nodup, fun t hq hopens ↦ ?_⟩
  have hopened := (hrecorded.opened t).mp hopens
  have hsettled := SharedRun.records h hpath t
  rw [hq] at hsettled
  rw [hrecorded.closed t]
  cases hstream : w.2.streams t with
  | unopened => exact absurd hstream hopened
  | opened buffered => exact absurd hstream (hsettled buffered)
  | closed => rfl

end Runs

/-! ### Two writes -/

/-- A synchronous write of `x` to `./s/f`, and one of `y`. -/
private def twoWrites : Bool → Request
  | true => .writeSync (lit "WRITE_SYNC|./s/f|x")
  | false => .writeSync (lit "WRITE_SYNC|./s/f|y")

private theorem twoWrites_path : ∀ t, (twoWrites t).WritesOrReads (lit "./s/f")
  | true => show (tokens bar (lit "WRITE_SYNC|./s/f|x"))[1]? = some (lit "./s/f") by decide
  | false => show (tokens bar (lit "WRITE_SYNC|./s/f|y"))[1]? = some (lit "./s/f") by decide

private theorem SharedRun.step [DecidableEq T] {requests : T → Request} {contents : Text}
    {log : List (T × SsEvent)} {qs : T → SsProg Unit} {table table' : List LockStruct}
    {d : DataFile T} (h : SharedRun requests contents log qs (table, d)) (t : T) (o : SsOp)
    (r : o.Res) (d' : DataFile T) {k : o.Res → SsProg Unit} (hq : qs t = .perform o k)
    (htable : tableRespond o r table table') (hfile : fileRespond t o r d d') :
    SharedRun requests contents (log ++ [(t, ⟨o, r⟩)]) (Function.update qs t (k r)) (table', d') :=
  Interleaved.step h hq ⟨htable, hfile⟩

/-- Both writes make an entry for the path and have their locks at the same time; the write of `y`
closes its stream first. -/
theorem writes_are_appended_once_of_two :
    ∃ log qs w, SharedRun twoWrites (lit "old\n") log qs w ∧ w.1.length = 2 ∧
      w.2.contents = lit "old\ny\nx\n" ∧
      (∃ records : List (Bool × Text), records.map Prod.fst = closers log ∧
        (∀ r ∈ records, (twoWrites r.1).Appends r.2) ∧
        w.2.contents = lit "old\n" ++ (records.map Prod.snd).flatten) ∧
      (closers log).Nodup ∧
      ∀ t, qs t = .ret () → OpensFile (own t log) → t ∈ closers log := by
  let path := lit "./s/f"
  have h₀ : SharedRun twoWrites (lit "old\n") [] _ ([], ⟨lit "old\n", fun _ ↦ .unopened⟩) := .start
  have h₁ := h₀.step true (.lookup path) none _ rfl ⟨rfl, rfl⟩ rfl
  have h₂ := h₁.step false (.lookup path) none _ rfl ⟨rfl, rfl⟩ rfl
  have h₃ := h₂.step true (.create path) (0 : Nat) _ rfl ⟨rfl, by decide, rfl⟩ rfl
  have h₄ := h₃.step false (.create path) (1 : Nat) _ rfl ⟨rfl, by decide, rfl⟩ rfl
  have h₅ := h₄.step true (.acquire .write 0) () _ rfl ⟨_, _, rfl, rfl, rfl⟩ rfl
  have h₆ := h₅.step false (.acquire .write 1) () _ rfl ⟨_, _, rfl, rfl, rfl⟩ rfl
  have h₇ := h₆.step true (.fopen path) true _ rfl rfl rfl
  have h₈ := h₇.step false (.fopen path) true _ rfl rfl rfl
  have h₉ := h₈.step true (.fprintf (lit "x\n")) () _ rfl rfl ⟨_, rfl, rfl⟩
  have h₁₀ := h₉.step false (.fprintf (lit "y\n")) () _ rfl rfl ⟨_, rfl, rfl⟩
  have h₁₁ := h₁₀.step true (.release .write 0) () _ rfl ⟨_, rfl, rfl⟩ rfl
  have h₁₂ := h₁₁.step false (.release .write 1) () _ rfl ⟨_, rfl, rfl⟩ rfl
  have h₁₃ := h₁₂.step false .fclose () _ rfl rfl ⟨_, rfl, rfl⟩
  have h₁₄ := h₁₃.step true .fclose () _ rfl rfl ⟨_, rfl, rfl⟩
  exact ⟨_, _, _, h₁₄, rfl, rfl, writes_are_appended_once h₁₄ twoWrites_path⟩

end NetworkFileSystem.Storage
