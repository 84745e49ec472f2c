import NetworkFileSystem.Base.Progress
import NetworkFileSystem.Naming.Semaphore

/-!
# Nobody waits for the semaphore for ever

`naming_server.c:57–103,127–221,458–519,829–1037`. No section of `storage_semaphore` contains
another one. So whatever threads there are and however they interleave, a thread that waits
for the semaphore is let in, also after deletions that have missed their keys.
-/

namespace NetworkFileSystem.Naming.Semaphore

open Base Prog

/-- All threads have performed their tasks; or one of them has come to something other than the
semaphore that has no defined result. -/
def Performed {T : Type} (s : (T → ThreadProg Unit) × Shared) : Prop :=
  (∀ t, s.1 t = .ret ()) ∨ (∃ t, s.1 t = .abort) ∨
    ∃ t o k, s.1 t = .perform o k ∧ o ≠ .semWait ∧ ∀ r w, ¬ respond o r s.2 w

/-- Somebody is inside where the semaphore lets nobody in. -/
def Guarded {T : Type} (st : T → Place) (w : Shared) : Prop :=
  w.semaphore = 0 → ∃ t, st t = .inside

/-- Only waits and posts change the value. -/
private theorem semaphore_of_respond {o : ThreadOp} {r : o.Res} {u v : Shared}
    (hwait : o ≠ .semWait) (hpost : o ≠ .semPost) (hr : respond o r u v) :
    v.semaphore = u.semaphore := by
  cases o with
  | semWait => exact absurd rfl hwait
  | semPost => exact absurd rfl hpost
  | addPathToTrie i path | deletePath i path =>
    obtain ⟨root, -, hroot⟩ := Option.bind_eq_some_iff.mp hr
    obtain ⟨root', -, hv⟩ := Option.bind_eq_some_iff.mp hroot
    cases hv
    rfl
  | searchCache | searchToDelete | entryIndex | searchInTries | findRedundancy | serverIndex |
      moveToBack | shiftOut | addToCache | replaceRoot | enterServer | nextIndex | isSsUp | isUp |
      exchange | recvIndex | createBackupHelper =>
    simp only [respond] at hr
    simp [hr]

/-- A thread leaves its section with a post only. -/
private theorem inside_of_next {o : ThreadOp} {r : o.Res} {s' : Place} (hpost : o ≠ .semPost)
    (hs : Place.inside.next ⟨o, r⟩ = some s') : s' = .inside := by
  cases o with
  | semPost => exact absurd rfl hpost
  | semWait => cases hs
  | _ => exact (Option.some.inj hs).symm

variable {T : Type} [DecidableEq T]

private theorem Guarded.step {st : T → Place} {u v : Shared} {t : T} {o : ThreadOp} {r : o.Res}
    {s' : Place} (h : Guarded st u) (hs : (st t).next ⟨o, r⟩ = some s') (hr : respond o r u v) :
    Guarded (Function.update st t s') v := by
  intro hzero
  by_cases hwait : o = .semWait
  · subst hwait
    refine ⟨t, ?_⟩
    rw [Function.update_self]
    cases ht : st t with
    | outside =>
      rw [ht] at hs
      exact (Option.some.inj hs).symm
    | inside | missed =>
      rw [ht] at hs
      cases hs
  by_cases hpost : o = .semPost
  · subst hpost
    obtain rfl := hr
    cases hzero
  · rw [semaphore_of_respond hwait hpost hr] at hzero
    obtain ⟨x, hx⟩ := h hzero
    by_cases hxt : x = t
    · subst hxt
      rw [hx] at hs
      exact ⟨x, by rw [Function.update_self, inside_of_next hpost hs]⟩
    · exact ⟨x, by rw [Function.update_of_ne hxt, hx]⟩

/-- Whatever the threads have to do and however they interleave, every run comes to an end, and
never because all threads that are left wait for the semaphore. -/
theorem semaphore_stops_nobody [Finite T] (tasks : T → List Task) {start : Shared}
    (hstart : start.semaphore = 1) :
    Ends (sharedData T (fun _ _ ↦ True)).Step Performed (fun t ↦ performTasks (tasks t), start) := by
  refine Interleaved.ends (fun log qs w hrun hstuck ↦ ?_)
  obtain ⟨st, hguarded, hst⟩ := Interleaved.follows hrun (I := Guarded)
    (fun t ↦ follows_stepTasks (tasks t)) (fun hzero ↦ by rw [hstart] at hzero; cases hzero)
    (fun _ _ _ _ hs ↦ hs.elim) (fun _ _ _ _ _ _ _ hI hs hr ↦ hI.step hs hr.2)
  by_contra hnot
  simp only [Performed, not_or, not_exists, not_forall] at hnot
  obtain ⟨⟨t, ht⟩, hup, hothers⟩ := hnot
  have hwaits : ∀ u, qs u ≠ .ret () → ∃ k, qs u = .perform .semWait k := by
    intro u hu
    cases hq : qs u with
    | ret a => exact absurd hq hu
    | abort => exact absurd hq (hup u)
    | perform o k =>
      by_cases ho : o = .semWait
      · subst ho
        exact ⟨k, rfl⟩
      · exact absurd ⟨hq, ho, fun r v hr ↦ hstuck _ (.perform hq ⟨trivial, hr⟩)⟩ (hothers u o k)
  obtain ⟨k, hk⟩ := hwaits t ht
  have hzero : w.semaphore = 0 := by
    by_contra hpos
    exact hstuck _ (.perform (r := ()) hk ⟨trivial, Nat.pos_of_ne_zero hpos, rfl⟩)
  -- Whoever is inside has not ended, and does not wait.
  obtain ⟨u, hu⟩ := hguarded hzero
  have hfollows := (hst u).1
  rw [hu] at hfollows
  by_cases hret : qs u = .ret ()
  · rw [hret] at hfollows
    cases hfollows
  · obtain ⟨k', hk'⟩ := hwaits u hret
    rw [hk'] at hfollows
    obtain ⟨s', hs', -⟩ := hfollows ()
    cases hs'

/-- Two clients, and a server that registers. -/
theorem semaphore_stops_nobody_of_three :
    Ends (sharedData (Fin 3) (fun _ _ ↦ True)).Step Performed
      (fun t ↦ performTasks (if t = 0 then [.register] else [.remove (lit "rm ./s/a") (lit "./s/a"),
        .search (lit "./s/a")]), ⟨1, .initializeCache, [], 0⟩) :=
  semaphore_stops_nobody (fun t : Fin 3 ↦ if t = 0 then [.register] else
    [.remove (lit "rm ./s/a") (lit "./s/a"), .search (lit "./s/a")]) rfl

end NetworkFileSystem.Naming.Semaphore
