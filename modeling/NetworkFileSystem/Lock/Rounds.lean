import NetworkFileSystem.Base.Transition
import NetworkFileSystem.Lock.Wakeup
import Mathlib.Algebra.Order.BigOperators.Group.Finset
import Mathlib.Data.Prod.Lex
import Mathlib.Order.WellFounded

/-!
# Everybody gets the lock

`lock.c:18–101`. Threads take one lock and give it back, each a number of times and every
time in any mode. Whoever runs first and whom the signals choose, all of them come through:
no run gets stuck, and none goes on for ever unless the waits keep returning by themselves.
-/

namespace NetworkFileSystem.Lock

open Base Finset

/-- Threads on one lock, how often each of them still takes it, and how many waits may still
return without a signal. -/
structure Shift (T : Type) where
  sys : Sys T
  rounds : T → Nat
  strays : Nat

namespace Shift

variable {T : Type} [DecidableEq T]

/-- The steps of the threads that have rounds left. A round is over with its release. -/
inductive Step : Shift T → Shift T → Prop where
  | acquire {s : Shift T} {t : T} {m : Mode} {l : LockStruct} :
      Trying s.sys t m → 0 < s.rounds t → Lock.acquire m s.sys.lock = some l →
      Step s { s with sys := ⟨l, Function.update s.sys.phase t (.holding m)⟩ }
  | sleep {s : Shift T} {t : T} {m : Mode} :
      Trying s.sys t m → 0 < s.rounds t → Lock.acquire m s.sys.lock = none →
      Step s { s with sys := ⟨s.sys.lock, Function.update s.sys.phase t (.asleep m)⟩ }
  | spurious {s : Shift T} {t : T} {m : Mode} {n : Nat} :
      s.sys.phase t = .asleep m → s.strays = n + 1 →
      Step s { s with
        sys := ⟨s.sys.lock, Function.update s.sys.phase t (.woken m)⟩, strays := n }
  | release {s : Shift T} {t : T} {m : Mode} {l : LockStruct} {w : Wake} {chosen : T → Prop} :
      s.sys.phase t = .holding m → Lock.release m s.sys.lock = (l, w) →
      Wakes (Function.update s.sys.phase t .idle) chosen w →
      Step s { s with
        sys := ⟨l, wakeUp (Function.update s.sys.phase t .idle) chosen⟩,
        rounds := Function.update s.rounds t (s.rounds t - 1) }

/-- Before the first round. -/
def Start (s : Shift T) : Prop := Initial s.sys

/-- All rounds are over, and nobody has the lock. -/
def Over (s : Shift T) : Prop := (∀ t, s.rounds t = 0) ∧ ∀ t, s.sys.phase t = .idle

/-- A shift is a run of its threads on the lock. -/
theorem Step.sys {s s' : Shift T} (h : Step s s') : Lock.Step s.sys s'.sys := by
  cases h with
  | acquire ht _ hl => exact .acquire ht hl
  | sleep ht _ hl => exact .sleep ht hl
  | spurious ht _ => exact .spurious ht
  | release ht hl hw => exact .release ht hl hw

variable [Fintype T]

/-- What holds between any two steps. -/
structure Kept (s : Shift T) : Prop where
  exclusive : Exclusive s.sys
  attended : Attended s.sys
  /-- Only a thread with a round left is on its way. -/
  engaged : ∀ t, s.rounds t = 0 → s.sys.phase t = .idle

omit [DecidableEq T] in
theorem Kept.of_start {s : Shift T} (h : s.Start) : Kept s := by
  refine ⟨.of_initial h, fun t m ht ↦ ?_, fun t _ ↦ h.2 t⟩
  rw [h.2 t] at ht
  cases ht

omit [DecidableEq T] [Fintype T] in
/-- A thread that is idle and is not chosen stays so. -/
private theorem wakeUp_idle {phase : T → Phase} {chosen : T → Prop} {t : T}
    (h : phase t = .idle) : wakeUp phase chosen t = .idle := by
  simp [wakeUp, h]

theorem Kept.step {s s' : Shift T} (h : Kept s) (hs : Step s s') : Kept s' := by
  refine ⟨h.exclusive.step hs.sys, h.exclusive.attended hs.sys, fun u hu ↦ ?_⟩
  have hother : ∀ {t : T} {p : Phase}, s.rounds t ≠ 0 → s.rounds u = 0 →
      Function.update s.sys.phase t p u = .idle := by
    intro t p ht hu
    have hne : u ≠ t := by
      rintro rfl
      exact ht hu
    rw [Function.update_of_ne hne]
    exact h.engaged u hu
  cases hs with
  | acquire _ hpos _ => exact hother hpos.ne' hu
  | sleep _ hpos _ => exact hother hpos.ne' hu
  | spurious ht _ =>
    refine hother (fun h0 ↦ ?_) hu
    rw [h.engaged _ h0] at ht
    cases ht
  | @release t m l w chosen ht _ _ =>
    apply wakeUp_idle
    by_cases hut : u = t
    · subst hut
      exact Function.update_self ..
    · rw [Function.update_of_ne hut]
      exact h.engaged u ((Function.update_of_ne hut _ _).symm.trans hu)

/-! ### Runs end -/

/-- Whether a thread is about to enter the loop of an acquire. -/
def isRestless (s : Shift T) (t : T) : Bool :=
  match s.sys.phase t with
  | .idle => decide (0 < s.rounds t)
  | .woken _ => true
  | _ => false

/-- The rounds that are left, the waits that may still return, and the threads whose next step
is theirs alone. -/
def rank (s : Shift T) : Nat × Nat × Nat :=
  (∑ t, s.rounds t, s.strays, (univ.filter (fun t ↦ s.isRestless t = true)).card)

/-- Ranks are compared from the left. -/
def Below : Nat × Nat × Nat → Nat × Nat × Nat → Prop :=
  Prod.Lex (· < ·) (Prod.Lex (· < ·) (· < ·))

theorem wellFounded_below : WellFounded Below :=
  WellFounded.prod_lex wellFounded_lt (WellFounded.prod_lex wellFounded_lt wellFounded_lt)

omit [DecidableEq T] [Fintype T] in
private theorem trying_restless {s : Shift T} {t : T} {m : Mode} (ht : Trying s.sys t m)
    (hpos : 0 < s.rounds t) : s.isRestless t = true := by
  obtain ht | ht := ht
  · simp [isRestless, ht, hpos]
  · simp [isRestless, ht]

/-- A thread that goes to sleep or comes in leaves the restless ones. -/
private theorem below_of_settled {s : Shift T} {t : T} {p : Phase} {l : LockStruct}
    (ht : s.isRestless t = true) (hp : p ≠ .idle) (hw : ∀ m, p ≠ .woken m) :
    Below (rank { s with sys := ⟨l, Function.update s.sys.phase t p⟩ }) (rank s) := by
  refine .right _ (.right _ (card_lt_card (Finset.ssubset_iff_subset_ne.mpr
    ⟨fun u hu ↦ ?_, ?_⟩)))
  · rw [mem_filter_univ] at hu ⊢
    by_cases hut : u = t
    · rw [hut]
      exact ht
    · simp only [isRestless, Function.update_of_ne hut] at hu ⊢
      exact hu
  · intro heq
    have hmem : t ∈ univ.filter (fun t ↦ s.isRestless t = true) := (mem_filter_univ t).mpr ht
    rw [← heq, mem_filter_univ] at hmem
    simp only [isRestless, Function.update_self] at hmem
    cases p with
    | idle => exact hp rfl
    | woken m => exact hw m rfl
    | asleep | holding => cases hmem

theorem Kept.below {s s' : Shift T} (h : Kept s) (hs : Step s s') : Below (rank s') (rank s) := by
  cases hs with
  | acquire ht hpos _ =>
    exact below_of_settled (trying_restless ht hpos) (by simp) (by simp)
  | sleep ht hpos _ =>
    exact below_of_settled (trying_restless ht hpos) (by simp) (by simp)
  | spurious _ hn => exact .right _ (.left _ _ (by simp only [hn]; omega))
  | @release t m l w chosen ht _ _ =>
    have hpos : s.rounds t ≠ 0 := by
      intro h0
      rw [h.engaged t h0] at ht
      cases ht
    refine .left _ _ (sum_lt_sum (fun u _ ↦ ?_) ⟨t, mem_univ t, ?_⟩)
    · by_cases hut : u = t
      · simp [hut]
      · simp [Function.update_of_ne hut]
    · simp only [Function.update_self]
      omega

/-! ### Where they end -/

/-- Somebody can always be chosen as a signal requires. -/
private theorem exists_wakes {T : Type} (phase : T → Phase) (w : Wake) :
    ∃ chosen, Wakes phase chosen w := by
  cases w with
  | none => exact ⟨fun _ ↦ False, fun _ h ↦ h⟩
  | signal => exact ⟨fun _ ↦ True, fun ⟨t, m, ht⟩ ↦ ⟨t, m, ht, trivial⟩⟩
  | broadcast => exact ⟨fun _ ↦ True, fun _ _ _ ↦ trivial⟩

theorem Kept.ended {s : Shift T} (h : Kept s) (hstop : ∀ s', ¬ Step s s') : s.Over := by
  have hfree : ∀ t m, s.sys.phase t ≠ .holding m := by
    intro t m ht
    obtain ⟨chosen, hw⟩ := exists_wakes (Function.update s.sys.phase t .idle)
      (Lock.release m s.sys.lock).2
    exact hstop _ (.release ht rfl hw)
  have hcalm : ∀ t m, Trying s.sys t m → s.rounds t = 0 := by
    intro t m ht
    by_contra hne
    have hpos : 0 < s.rounds t := Nat.pos_of_ne_zero hne
    cases hl : Lock.acquire m s.sys.lock with
    | some l => exact hstop _ (.acquire ht hpos hl)
    | none => exact hstop _ (.sleep ht hpos hl)
  have hawake : ∀ t m, s.sys.phase t ≠ .woken m := by
    intro t m ht
    have hidle := h.engaged t (hcalm t m (.inr ht))
    rw [ht] at hidle
    cases hidle
  have hidle : ∀ t, s.sys.phase t = .idle := by
    intro t
    cases ht : s.sys.phase t with
    | idle => rfl
    | woken m => exact absurd ht (hawake t m)
    | holding m => exact absurd ht (hfree t m)
    | asleep m =>
      obtain ⟨u, m', hu⟩ | ⟨u, m', hu⟩ := h.attended t m ht
      · exact absurd hu (hfree u m')
      · exact absurd hu (hawake u m')
  exact ⟨fun t ↦ hcalm t .read (.inl (hidle t)), hidle⟩

/-- Whatever the order in which any number of threads take one lock and give it back, whomever
the signals choose, and with finitely many waits that return by themselves: the run comes to an
end, and at the end every thread has had the lock as often as it wanted. -/
theorem every_round_is_served {s : Shift T} (h : s.Start) : Ends Step Over s :=
  .of_rank (I := Kept) wellFounded_below rank (.of_start h) (fun _ _ hk hs ↦ hk.step hs)
    (fun _ _ hk hs ↦ hk.below hs) (fun _ hk hstop ↦ hk.ended hstop)

/-- Two readers, a writer and a deleter with three rounds each. -/
theorem every_round_is_served_to_four :
    Ends Step Over (⟨⟨initLock (lit "./s/f"), fun _ ↦ .idle⟩, fun _ ↦ 3, 7⟩ : Shift (Fin 4)) :=
  every_round_is_served ⟨⟨_, rfl⟩, fun _ ↦ rfl⟩

end Shift
end NetworkFileSystem.Lock
