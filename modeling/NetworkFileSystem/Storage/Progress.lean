import NetworkFileSystem.Base.Progress
import NetworkFileSystem.Lock.Wakeup
import NetworkFileSystem.Storage.SameLock

/-!
# Requests come to an end

`storage_server.c:21–336,465–480`, `lock.c:24–101`. A request takes a single lock. As long as
files open, whoever waits for a lock waits for a request that goes on, so requests never
wait for each other in a circle, whatever their paths.
-/

namespace NetworkFileSystem.Storage

open Base Lock Prog

/-- Files open. -/
def Opens : (o : SsOp) → o.Res → Prop
  | .fopen _, ok => ok = true
  | _, _ => True

/-- The table of locks as the environment of requests whose files open. -/
def openingTable (T : Type) : SharedEnvironment T SsOp SsOp.Res (List LockStruct) where
  respond := fun _ o r t t' ↦ Opens o r ∧ tableRespond o r t t'
  silent := fun _ _ ↦ False

/-- All requests have been handled; or one of them has brought the server down, or would write
past the end of the table. -/
def Handled {T : Type} (s : (T → SsProg Unit) × List LockStruct) : Prop :=
  (∀ t, s.1 t = .ret ()) ∨ (∃ t, s.1 t = .abort) ∨ maxReq ≤ s.2.length

/-- An operation that does not wait for a lock can be performed at once. -/
private theorem answered {s : Hold} {o : SsOp} {s' : o.Res → Hold} {table : List LockStruct}
    (hs : ∀ r, s.next ⟨o, r⟩ = some (s' r)) (hwait : ∀ m i, o ≠ .acquire m i)
    (hbound : ∀ m i, s.held = some (m, i) → i < table.length) (hroom : table.length < maxReq) :
    ∃ r table', Opens o r ∧ tableRespond o r table table' := by
  cases o with
  | lookup path => exact ⟨_, _, trivial, rfl, rfl⟩
  | create path => exact ⟨_, _, trivial, rfl, hroom, rfl⟩
  | acquire m i => exact absurd rfl (hwait m i)
  | release m i =>
    have hheld := hs ()
    simp only [Hold.next, Option.ite_none_right_eq_some] at hheld
    exact ⟨(), _, trivial, _, List.getElem?_eq_getElem (hbound m i hheld.1), rfl⟩
  | fopen path => exact ⟨true, table, rfl, rfl⟩
  | stack => exact ⟨[], table, trivial, rfl⟩
  | fprintf text => exact ⟨(), table, trivial, rfl⟩
  | fclose => exact ⟨(), table, trivial, rfl⟩
  | openRead path => exact ⟨none, table, trivial, rfl⟩
  | remove path => exact ⟨true, table, trivial, rfl⟩
  | send text => exact ⟨true, table, trivial, rfl⟩
  | notify text => exact ⟨true, table, trivial, rfl⟩

variable {T : Type} [DecidableEq T]

/-- The requests that have found their lock have found it in the table. -/
private theorem found_step {sites : T → Site} {table table' : List LockStruct} {t : T} {o : SsOp}
    {r : o.Res} {s' : Site} (h : ∀ u i, (sites u).lock = some i → i < table.length)
    (hs : (sites t).next ⟨o, r⟩ = some s') (hr : tableRespond o r table table') (u : T) (i : Nat)
    (hi : (Function.update sites t s' u).lock = some i) : i < table'.length := by
  have hpaths := congrArg List.length (paths_respond hr)
  simp only [List.length_map, List.length_append] at hpaths
  by_cases hu : u = t
  · subst hu
    rw [Function.update_self] at hi
    obtain rfl | ⟨path, -, hget⟩ := lock_of_next hs hr hi
    · have hlt := h u i hi
      omega
    · simpa using (List.getElem?_eq_some_iff.mp hget).1
  · rw [Function.update_of_ne hu] at hi
    have hlt := h u i hi
    omega

/-- While files open, no request remembers a failure. -/
private theorem unfailed_of_next {s s' : Hold} {o : SsOp} {r : o.Res}
    (hs : s.next ⟨o, r⟩ = some s') (hopens : Opens o r) : s'.failed = s.failed := by
  cases o with
  | acquire m i | release m i =>
    simp only [Hold.next, Option.ite_none_right_eq_some, Option.some.injEq] at hs
    rw [← hs.2]
  | fopen path =>
    obtain rfl : r = true := hopens
    cases hs
    rfl
  | _ =>
    cases hs
    rfl

variable [Fintype T]

/-- Where the requests of a run are, while files open. -/
structure Underway (st : T → Hold) (sites : T → Site) (qs : T → SsProg Unit)
    (table : List LockStruct) : Prop where
  accounted : Accounted (fun t ↦ (st t).held) table
  opened : ∀ t, (st t).failed = false
  found : ∀ t i, (sites t).lock = some i → i < table.length
  holds : ∀ t, Follows Hold.next (fun _ ↦ Hold.Ended) (st t) (qs t)
  stays : ∀ t, Follows Site.next (fun _ _ ↦ True) (sites t) (qs t)

private theorem exists_underway {requests : T → Request} {log : List (T × SsEvent)}
    {qs : T → SsProg Unit} {table : List LockStruct}
    (h : Interleaved (openingTable T) (fun t ↦ (requests t).program) [] log qs table) :
    ∃ st sites, Underway st sites qs table := by
  obtain ⟨st, ⟨hacc, hopen⟩, hst⟩ := Interleaved.follows h
    (I := fun st table ↦ Accounted (fun t ↦ (st t).held) table ∧ ∀ t, (st t).failed = false)
    (fun t ↦ follows_program (requests t)) ⟨⟨by simp, by simp [Hold.start]⟩, fun _ ↦ rfl⟩
    (fun _ _ _ _ hs ↦ hs.elim) (fun st _ _ t o r s' hI hs hr ↦ by
      refine ⟨hI.1.step hs hr.2, fun u ↦ ?_⟩
      by_cases hu : u = t
      · subst hu
        rw [Function.update_self, unfailed_of_next hs hr.1]
        exact hI.2 u
      · rw [Function.update_of_ne hu]
        exact hI.2 u)
  obtain ⟨sites, hfound, hsites⟩ := Interleaved.follows h
    (I := fun sites table ↦ ∀ u i, (sites u).lock = some i → i < table.length)
    (fun t ↦ follows_site (requests t)) (fun _ _ hi ↦ by cases hi)
    (fun _ _ _ _ hs ↦ hs.elim) (fun _ _ _ _ _ _ _ hI hs hr ↦ found_step hI hs hr.2)
  exact ⟨st, sites, hacc, hopen, hfound, fun t ↦ (hst t).1, fun t ↦ (hsites t).1⟩

namespace Underway

variable {st : T → Hold} {sites : T → Site} {qs : T → SsProg Unit} {table : List LockStruct}
  {t u : T} {m m' : Mode} {i : Nat}

/-- Where nothing can be performed, a request that has not ended waits for a lock. -/
private theorem waits (h : Underway st sites qs table)
    (hstuck : ∀ s, ¬ (openingTable T).Step (qs, table) s) (hup : qs t ≠ .abort)
    (hroom : table.length < maxReq) :
    qs t = .ret () ∨ ∃ m i k, qs t = .perform (.acquire m i) k := by
  cases ht : qs t with
  | ret a => exact .inl rfl
  | abort => exact absurd ht hup
  | perform o k =>
    right
    by_contra hno
    have hfollows := h.holds t
    rw [ht] at hfollows
    choose s' hs' _ using hfollows
    obtain ⟨r, table', hopens, hr⟩ := answered hs'
      (fun m i ho ↦ hno ⟨m, i, ho ▸ k, by subst ho; rfl⟩) (h.accounted.bound t) hroom
    exact hstuck _ (.perform ht ⟨hopens, hr⟩)

/-- A request that waits for a lock waits for another one that holds it. -/
private theorem exists_holder (h : Underway st sites qs table) {k : Unit → SsProg Unit}
    (ht : qs t = .perform (.acquire m i) k)
    (hstuck : ∀ s, ¬ (openingTable T).Step (qs, table) s) : ∃ u, (st u).held ≠ none := by
  have hi : i < table.length := by
    have hstays := h.stays t
    rw [ht] at hstays
    obtain ⟨s', hs', -⟩ := hstays ()
    simp only [Site.next, Option.ite_none_right_eq_some] at hs'
    exact h.found t i hs'.1
  obtain ⟨u, m', hu⟩ : ∃ u m', phaseAt i (st u).held = .holding m' := by
    apply (h.accounted.exclusive i _ (List.getElem?_eq_getElem hi)).exists_holder (m := m)
    by_contra hsome
    obtain ⟨l', hl'⟩ := Option.ne_none_iff_exists'.mp hsome
    exact hstuck _ (.perform (r := ()) ht ⟨trivial, _, _, List.getElem?_eq_getElem hi, hl', rfl⟩)
  refine ⟨u, fun hnone ↦ ?_⟩
  rw [hnone] at hu
  cases hu

omit [DecidableEq T] in
/-- A request that holds a lock has not ended, and waits for no other lock. -/
private theorem not_waits (h : Underway st sites qs table) (hu : (st u).held ≠ none) :
    qs u ≠ .ret () ∧ ∀ m i k, qs u ≠ .perform (.acquire m i) k := by
  have hholds := h.holds u
  refine ⟨fun hret ↦ ?_, fun m i k hwait ↦ ?_⟩
  · rw [hret] at hholds
    have hended : (st u).held.isSome = (st u).failed := hholds
    rw [h.opened u, Option.isSome_eq_false_iff, Option.isNone_iff_eq_none] at hended
    exact hu hended
  · rw [hwait] at hholds
    obtain ⟨s', hs', -⟩ := hholds ()
    simp only [Hold.next, Option.ite_none_right_eq_some] at hs'
    exact hu hs'.1

end Underway

/-- Whatever the requests, their paths and their interleaving: if files open, every run comes
to an end, and all requests are handled then, unless one has brought the server down. -/
theorem requests_come_to_an_end (requests : T → Request) :
    Ends (openingTable T).Step Handled (fun t ↦ (requests t).program, []) := by
  refine Interleaved.ends (fun log qs table hrun hstuck ↦ ?_)
  obtain ⟨st, sites, h⟩ := exists_underway hrun
  by_contra hnot
  simp only [Handled, not_or, not_exists, not_forall, not_le] at hnot
  obtain ⟨⟨t, ht⟩, hup, hroom⟩ := hnot
  obtain ht' | ⟨m, i, k, ht'⟩ := h.waits hstuck (hup t) hroom
  · exact ht ht'
  · obtain ⟨u, hu⟩ := h.exists_holder ht' hstuck
    obtain ⟨hret, hwait⟩ := h.not_waits hu
    obtain hu' | ⟨n, j, k', hu'⟩ := h.waits hstuck (hup u) hroom
    · exact hret hu'
    · exact hwait n j k' hu'

end NetworkFileSystem.Storage
