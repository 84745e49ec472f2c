import NetworkFileSystem.Lock.FileLock
import Mathlib.Data.Finset.Insert

/-!
# Exclusion among readers, writers and deleters

`lock.c:22–96`. The three counters of the lock count the threads that hold it in
each mode, so the loop conditions, which read only the counters, exclude what
they are meant to exclude. The invariant is one structure; each kind of step
preserves it, and so does every interleaving of any number of threads.
-/

namespace NetworkFileSystem.Lock

open Base Finset

variable {T : Type}

theorem Trying.not_holding {s : Sys T} {t : T} {m : Mode} (h : Trying s t m) (m' : Mode) :
    s.phase t ≠ .holding m' := by
  rcases h with h | h <;> simp [h]

variable [Fintype T]

/-- The threads that hold the lock in mode `m`. -/
def holders (phase : T → Phase) (m : Mode) : Finset T := univ.filter (phase · = .holding m)

theorem mem_holders (phase : T → Phase) (m : Mode) (t : T) :
    t ∈ holders phase m ↔ phase t = .holding m := by
  simp [holders]

private theorem holders_congr {phase phase' : T → Phase} {m : Mode}
    (h : ∀ t, phase' t = .holding m ↔ phase t = .holding m) :
    holders phase' m = holders phase m := by
  ext t
  rw [mem_holders, mem_holders, h]

private theorem holders_wakeUp (phase : T → Phase) (chosen : T → Prop) (m : Mode) :
    holders (wakeUp phase chosen) m = holders phase m := by
  apply holders_congr
  intro t
  unfold wakeUp
  cases phase t with
  | asleep m' => by_cases hc : chosen t <;> simp [hc]
  | idle => simp
  | woken m' => simp
  | holding m' => simp

/-- The counters count the holders, at most one thread writes or deletes, and
while one does nobody reads. -/
structure Exclusive (s : Sys T) : Prop where
  readers : s.lock.readers = (holders s.phase .read).card
  writing : s.lock.isWriting = (holders s.phase .write).card
  deleting : s.lock.isDeleting = (holders s.phase .delete).card
  one : (holders s.phase .write).card + (holders s.phase .delete).card ≤ 1
  alone : 0 < (holders s.phase .write).card + (holders s.phase .delete).card →
    (holders s.phase .read).card = 0

namespace Exclusive

/-- A fresh lock has no holders. -/
theorem of_initial {s : Sys T} (h : Initial s) : Exclusive s := by
  obtain ⟨⟨path, hl⟩, hp⟩ := h
  have hnone (m : Mode) : (holders s.phase m).card = 0 := by
    simp [holders, hp]
  constructor <;> simp [hl, initLock, hnone]

/-- The invariant reads the phases only through the holder counts. -/
private theorem of_card_eq {l : LockStruct} {phase phase' : T → Phase}
    (h : Exclusive ⟨l, phase⟩) (hc : ∀ m, holders phase' m = holders phase m) :
    Exclusive ⟨l, phase'⟩ := by
  obtain ⟨hr, hw, hd, ho, ha⟩ := h
  constructor <;> simp_all

end Exclusive

variable [DecidableEq T]

/-- A thread that moves between two phases of not holding changes no holder set. -/
private theorem holders_update_other {phase : T → Phase} {t : T} {p : Phase} (m : Mode)
    (hold : ∀ m, phase t ≠ .holding m) (hnew : ∀ m, p ≠ .holding m) :
    holders (Function.update phase t p) m = holders phase m := by
  apply holders_congr
  intro u
  by_cases hu : u = t
  · subst u
    simp [hold m, hnew m]
  · simp [Function.update_of_ne hu]

private theorem card_holders_acquire {phase : T → Phase} {t : T} (m m' : Mode)
    (hold : ∀ m, phase t ≠ .holding m) :
    (holders (Function.update phase t (.holding m)) m').card =
      (holders phase m').card + if m = m' then 1 else 0 := by
  have hmem : t ∉ holders phase m' := by simp [mem_holders, hold m']
  by_cases hm : m = m'
  · subst m'
    have hset : holders (Function.update phase t (.holding m)) m =
        insert t (holders phase m) := by
      ext u
      by_cases hu : u = t
      · subst u; simp [mem_holders]
      · simp [mem_holders, hu]
    rw [hset, card_insert_of_notMem hmem]
    simp
  · have hset : holders (Function.update phase t (.holding m)) m' = holders phase m' := by
      apply holders_congr
      intro u
      by_cases hu : u = t
      · subst u; simp [hold m', hm]
      · simp [Function.update_of_ne hu]
    rw [hset]
    simp [hm]

private theorem card_holders_release {phase : T → Phase} {t : T} {m : Mode} (m' : Mode)
    (hold : phase t = .holding m) :
    (holders (Function.update phase t .idle) m').card + (if m = m' then 1 else 0) =
      (holders phase m').card := by
  have hidle : ∀ m, Function.update phase t .idle t ≠ .holding m := by simp
  have hback : Function.update (Function.update phase t .idle) t (.holding m) = phase := by
    rw [Function.update_idem, ← hold, Function.update_eq_self]
  rw [← card_holders_acquire m m' hidle, hback]

namespace Exclusive

theorem of_acquire {s : Sys T} {t : T} {m : Mode} {l : LockStruct} (h : Exclusive s)
    (ht : Trying s t m) (hl : acquire m s.lock = some l) :
    Exclusive ⟨l, Function.update s.phase t (.holding m)⟩ := by
  have hfree := ht.not_holding
  obtain ⟨hr, hw, hd, ho, ha⟩ := h
  have hread := card_holders_acquire m .read hfree
  have hwrite := card_holders_acquire m .write hfree
  have hdelete := card_holders_acquire m .delete hfree
  -- The loop condition that let `t` through is what the new counts need.
  cases m with
  | read =>
    simp only [acquire, acquireReadLock, Option.ite_none_left_eq_some, Option.some.injEq] at hl
    obtain ⟨hc, rfl⟩ := hl
    simp only [reduceCtorEq, ↓reduceIte] at hread hwrite hdelete
    constructor <;> simp only <;> omega
  | write =>
    simp only [acquire, acquireWriteLock, Option.ite_none_left_eq_some, Option.some.injEq] at hl
    obtain ⟨hc, rfl⟩ := hl
    simp only [reduceCtorEq, ↓reduceIte] at hread hwrite hdelete
    constructor <;> simp only <;> omega
  | delete =>
    simp only [acquire, acquireDeleteLock, Option.ite_none_left_eq_some, Option.some.injEq] at hl
    obtain ⟨hc, rfl⟩ := hl
    simp only [reduceCtorEq, ↓reduceIte] at hread hwrite hdelete
    constructor <;> simp only <;> omega

theorem of_release {s : Sys T} {t : T} {m : Mode} {l : LockStruct} {w : Wake}
    (h : Exclusive s) (ht : s.phase t = .holding m) (hl : release m s.lock = (l, w)) :
    Exclusive ⟨l, Function.update s.phase t .idle⟩ := by
  obtain ⟨hr, hw, hd, ho, ha⟩ := h
  have hread := card_holders_release .read ht
  have hwrite := card_holders_release .write ht
  have hdelete := card_holders_release .delete ht
  cases m with
  | read =>
    simp only [release, releaseReadLock, Prod.mk.injEq] at hl
    obtain ⟨rfl, -⟩ := hl
    simp only [reduceCtorEq, ↓reduceIte] at hread hwrite hdelete
    constructor <;> simp only <;> omega
  | write =>
    simp only [release, releaseWriteLock, Prod.mk.injEq] at hl
    obtain ⟨rfl, -⟩ := hl
    simp only [reduceCtorEq, ↓reduceIte] at hread hwrite hdelete
    constructor <;> simp only <;> omega
  | delete =>
    simp only [release, releaseDeleteLock, Prod.mk.injEq] at hl
    obtain ⟨rfl, -⟩ := hl
    simp only [reduceCtorEq, ↓reduceIte] at hread hwrite hdelete
    constructor <;> simp only <;> omega

/-- Every mutex-protected section and every wakeup keeps the invariant. -/
theorem step {s s' : Sys T} (h : Exclusive s) (hs : Step s s') : Exclusive s' := by
  cases hs with
  | acquire ht hl => exact h.of_acquire ht hl
  | sleep ht hl => exact of_card_eq h (fun m' ↦ holders_update_other m' ht.not_holding (by simp))
  | spurious ht =>
    exact of_card_eq h (fun m' ↦ holders_update_other m' (by simp [ht]) (by simp))
  | release ht hl _ =>
    exact of_card_eq (h.of_release ht hl) (fun m' ↦ holders_wakeUp _ _ m')

end Exclusive

/-- In every reachable state of any number of threads on one lock, `readers` is the
number of read holders, each flag is set exactly while one thread holds the matching
mode, the flags exclude each other, and a set flag means that nobody reads. -/
theorem lock_counts_holders {s : Sys T} (h : Reachable Initial Step s) :
    s.lock.readers = (holders s.phase .read).card ∧
    (s.lock.isWriting = 1 ↔ (holders s.phase .write).card = 1) ∧
    (s.lock.isDeleting = 1 ↔ (holders s.phase .delete).card = 1) ∧
    ¬ (s.lock.isWriting ≠ 0 ∧ s.lock.isDeleting ≠ 0) ∧
    (s.lock.isWriting ≠ 0 ∨ s.lock.isDeleting ≠ 0 → s.lock.readers = 0) := by
  obtain ⟨hr, hw, hd, ho, ha⟩ :=
    h.invariant (fun _ hi ↦ Exclusive.of_initial hi) (fun _ _ hs hst ↦ Exclusive.step hs hst)
  refine ⟨hr, by omega, by omega, by omega, by omega⟩

/-- A reader inside and a writer asleep, reached from a fresh lock. -/
theorem lock_counts_reader_and_sleeping_writer :
    let s : Sys Bool := ⟨⟨1, 0, 0, lit "./s/f"⟩,
      Function.update (Function.update (fun _ ↦ .idle) false (.holding .read)) true
        (.asleep .write)⟩
    s.lock.readers = (holders s.phase .read).card ∧
    (s.lock.isWriting = 1 ↔ (holders s.phase .write).card = 1) ∧
    (s.lock.isDeleting = 1 ↔ (holders s.phase .delete).card = 1) ∧
    ¬ (s.lock.isWriting ≠ 0 ∧ s.lock.isDeleting ≠ 0) ∧
    (s.lock.isWriting ≠ 0 ∨ s.lock.isDeleting ≠ 0 → s.lock.readers = 0) := by
  let s₀ : Sys Bool := ⟨initLock (lit "./s/f"), fun _ ↦ .idle⟩
  have h₀ : Reachable Initial Step s₀ := .start ⟨⟨_, rfl⟩, fun _ ↦ rfl⟩
  have h₁ := h₀.next (Step.acquire (t := false) (m := .read) (.inl rfl) rfl)
  have h₂ := h₁.next (Step.sleep (t := true) (m := .write) (.inl rfl) rfl)
  exact lock_counts_holders h₂

end NetworkFileSystem.Lock
