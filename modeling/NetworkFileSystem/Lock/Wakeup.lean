import NetworkFileSystem.Lock.Exclusion

/-!
# No lost wakeup

`lock.c:22–96`. A thread sleeps in `pthread_cond_wait` only while somebody will look
after the lock: a holder, whose release signals once nobody else holds it, or a woken
thread that has yet to re-check its condition. One signal is enough, because a woken
thread that cannot go on has found a holder.
-/

namespace NetworkFileSystem.Lock

open Base

variable {T : Type}

/-- Some thread holds the lock, or has been woken and not yet re-checked its condition. -/
def Busy (phase : T → Phase) : Prop :=
  (∃ t m, phase t = .holding m) ∨ ∃ t m, phase t = .woken m

/-- Nobody sleeps unless the lock is busy. -/
def Attended (s : Sys T) : Prop := ∀ t m, s.phase t = .asleep m → Busy s.phase

/-- A call that wakes whom it must leaves no thread asleep alone. -/
private theorem busy_of_wakes {phase : T → Phase} {chosen : T → Prop} {w : Wake}
    (hw : Wakes phase chosen w) (hne : w ≠ .none) {t : T} {m : Mode}
    (ht : wakeUp phase chosen t = .asleep m) : Busy (wakeUp phase chosen) := by
  have hasleep : phase t = .asleep m ∧ ¬ chosen t := by
    unfold wakeUp at ht
    split at ht
    · next m' h =>
      split at ht
      · cases ht
      · next hc =>
        cases ht
        exact ⟨h, hc⟩
    · next h => exact absurd ht (h m)
  cases w with
  | none => exact absurd rfl hne
  | signal =>
    obtain ⟨u, m', hu, hc⟩ := hw ⟨t, m, hasleep.1⟩
    refine .inr ⟨u, m', ?_⟩
    simp [wakeUp, hu, hc]
  | broadcast => exact absurd (hw t m hasleep.1) hasleep.2

private theorem holding_wakeUp {phase : T → Phase} {t : T} {m : Mode} (h : phase t = .holding m)
    (chosen : T → Prop) : wakeUp phase chosen t = .holding m := by
  simp [wakeUp, h]

variable [Fintype T]

private theorem exists_of_card_ne_zero {phase : T → Phase} {m : Mode}
    (h : (holders phase m).card ≠ 0) : ∃ t m, phase t = .holding m := by
  obtain ⟨t, ht⟩ := Finset.card_ne_zero.mp h
  exact ⟨t, m, (mem_holders phase m t).mp ht⟩

/-- The loop condition of an acquire holds only while somebody holds the lock. -/
theorem Exclusive.exists_holder {s : Sys T} (h : Exclusive s) {m : Mode}
    (hnone : acquire m s.lock = none) : ∃ t m, s.phase t = .holding m := by
  have hset : s.lock.isWriting ≠ 0 ∨ s.lock.isDeleting ≠ 0 ∨ s.lock.readers > 0 := by
    cases m with
    | read =>
      simp only [acquire, acquireReadLock, ite_eq_left_iff, reduceCtorEq, imp_false,
        not_not] at hnone
      omega
    | write =>
      simpa only [acquire, acquireWriteLock, ite_eq_left_iff, reduceCtorEq, imp_false,
        not_not] using hnone
    | delete =>
      simpa only [acquire, acquireDeleteLock, ite_eq_left_iff, reduceCtorEq, imp_false,
        not_not] using hnone
  obtain ⟨hr, hw, hd, -, -⟩ := h
  rcases hset with hset | hset | hset
  · exact exists_of_card_ne_zero (m := .write) (by omega)
  · exact exists_of_card_ne_zero (m := .delete) (by omega)
  · exact exists_of_card_ne_zero (m := .read) (by omega)

/-- A release that wakes nobody leaves a reader behind. -/
private theorem readers_of_no_wake {m : Mode} {l l' : LockStruct}
    (h : release m l = (l', .none)) : l'.readers ≠ 0 := by
  cases m with
  | read =>
    simp only [release, releaseReadLock, Prod.mk.injEq, ite_eq_right_iff, reduceCtorEq,
      imp_false] at h
    obtain ⟨rfl, hne⟩ := h
    exact hne
  | write => simp [release, releaseWriteLock] at h
  | delete => simp [release, releaseDeleteLock] at h

variable [DecidableEq T]

/-- Every mutex-protected section and every wakeup leaves the sleepers attended. -/
theorem Exclusive.attended {s s' : Sys T} (hex : Exclusive s) (hs : Step s s') : Attended s' := by
  intro u mu hu
  cases hs with
  | @acquire t m l ht hl => exact .inl ⟨t, m, Function.update_self ..⟩
  | @sleep t m ht hl =>
    -- The thread that goes to sleep has found a holder, and is not that holder.
    obtain ⟨v, mv, hv⟩ := hex.exists_holder hl
    have hne : v ≠ t := by
      rintro rfl
      exact ht.not_holding mv hv
    exact .inl ⟨v, mv, by simp [Function.update_of_ne hne, hv]⟩
  | @spurious t m ht => exact .inr ⟨t, m, Function.update_self ..⟩
  | @release t m l w chosen ht hl hw =>
    by_cases hnone : w = .none
    · subst w
      have hreaders := readers_of_no_wake hl
      rw [(hex.of_release ht hl).readers] at hreaders
      obtain ⟨v, mv, hv⟩ := exists_of_card_ne_zero (by simpa using hreaders)
      exact .inl ⟨v, mv, holding_wakeUp hv chosen⟩
    · exact busy_of_wakes hw hnone hu

/-- In every reachable state of any number of threads on one lock in which a thread sleeps,
some thread holds the lock or has been woken and not yet re-checked its condition. -/
theorem no_lost_wakeup {s : Sys T} (h : Reachable Initial Step s) {t : T} {m : Mode}
    (ht : s.phase t = .asleep m) :
    (∃ u m', s.phase u = .holding m') ∨ ∃ u m', s.phase u = .woken m' := by
  have hinv : Exclusive s ∧ Attended s := by
    refine h.invariant (I := fun s ↦ Exclusive s ∧ Attended s) ?_ ?_
    · intro s hs
      refine ⟨.of_initial hs, fun t m ht ↦ ?_⟩
      rw [hs.2 t] at ht
      cases ht
    · intro s s' hs hstep
      exact ⟨hs.1.step hstep, hs.1.attended hstep⟩
  exact hinv.2 t m ht

/-- A writer holds the lock while a deleter and a reader sleep. -/
theorem no_lost_wakeup_behind_writer :
    let s : Sys (Fin 3) := ⟨⟨0, 1, 0, lit "./s/f"⟩,
      Function.update (Function.update (Function.update (fun _ ↦ .idle) 0 (.holding .write)) 1
        (.asleep .delete)) 2 (.asleep .read)⟩
    (∃ u m', s.phase u = .holding m') ∨ ∃ u m', s.phase u = .woken m' := by
  let s₀ : Sys (Fin 3) := ⟨initLock (lit "./s/f"), fun _ ↦ .idle⟩
  have h₀ : Reachable Initial Step s₀ := .start ⟨⟨_, rfl⟩, fun _ ↦ rfl⟩
  have h₁ := h₀.next (Step.acquire (t := 0) (m := .write) (.inl rfl) rfl)
  have h₂ := h₁.next (Step.sleep (t := 1) (m := .delete) (.inl rfl) rfl)
  have h₃ := h₂.next (Step.sleep (t := 2) (m := .read) (.inl rfl) rfl)
  exact no_lost_wakeup h₃ (t := 1) (m := .delete) rfl

end NetworkFileSystem.Lock
