import Mathlib.Logic.Relation
import Mathlib.Order.WellFounded

/-!
# Reachability and invariants of transition systems

General support. A system is a predicate of initial states and a step relation;
a state property that holds initially and is kept by every step holds in every
reachable state. A property is inevitable if every run comes to a state that has it.
-/

namespace NetworkFileSystem.Base

universe u

variable {σ : Type u}

/-- States reached from an initial state by finitely many steps. -/
inductive Reachable (init : σ → Prop) (step : σ → σ → Prop) : σ → Prop where
  | start {s : σ} : init s → Reachable init step s
  | next {s t : σ} : Reachable init step s → step s t → Reachable init step t

namespace Reachable

variable {init : σ → Prop} {step : σ → σ → Prop}

/-- The invariant rule: initial states satisfy `I` and every step keeps it. -/
theorem invariant {I : σ → Prop} (hinit : ∀ s, init s → I s)
    (hstep : ∀ s t, I s → step s t → I t) {s : σ} (h : Reachable init step s) : I s := by
  induction h with
  | start hs => exact hinit _ hs
  | next _ hst ih => exact hstep _ _ ih hst

theorem mono {init' : σ → Prop} {step' : σ → σ → Prop} (hinit : ∀ s, init s → init' s)
    (hstep : ∀ s t, step s t → step' s t) {s : σ} (h : Reachable init step s) :
    Reachable init' step' s := by
  induction h with
  | start hs => exact .start (hinit _ hs)
  | next _ hst ih => exact .next ih (hstep _ _ hst)

end Reachable

/-- Every run from `s` comes to a state of `P`: there is a next step as long as there is no
such state, and every next step leads on to one. -/
inductive Inevitable (step : σ → σ → Prop) (P : σ → Prop) : σ → Prop where
  | now {s : σ} : P s → Inevitable step P s
  | next {s : σ} : (∃ t, step s t) → (∀ t, step s t → Inevitable step P t) → Inevitable step P s

/-- Every run from `s` is finite and stops in a state of `P` only. -/
def Ends (step : σ → σ → Prop) (P : σ → Prop) (s : σ) : Prop :=
  (∀ run : Nat → σ, run 0 = s → ¬ ∀ n, step (run n) (run (n + 1))) ∧
    ∀ t, Relation.ReflTransGen step s t → (∀ u, ¬ step t u) → P t

theorem Ends.imp {step : σ → σ → Prop} {P Q : σ → Prop} {s : σ} (h : Ends step P s)
    (himp : ∀ t, P t → Q t) : Ends step Q s :=
  ⟨h.1, fun t hrun hstop ↦ himp t (h.2 t hrun hstop)⟩

/-- The rule for runs that come to an end: steps keep the invariant and make the rank smaller,
and where there is no step, the invariant gives `P`. -/
theorem Ends.of_rank {step : σ → σ → Prop} {P I : σ → Prop} {ρ : Type*} {lt : ρ → ρ → Prop}
    (hwf : WellFounded lt) (rank : σ → ρ) {s : σ} (hs : I s)
    (hkeep : ∀ s t, I s → step s t → I t) (hless : ∀ s t, I s → step s t → lt (rank t) (rank s))
    (hstop : ∀ s, I s → (∀ t, ¬ step s t) → P s) : Ends step P s := by
  constructor
  · intro run hstart hrun
    have hI : ∀ n, I (run n) := by
      intro n
      induction n with
      | zero => rwa [hstart]
      | succ n ih => exact hkeep _ _ ih (hrun n)
    have : IsWellFounded ρ lt := ⟨hwf⟩
    obtain ⟨n, hn⟩ := WellFounded.not_rel_apply_succ (r := lt) (fun n ↦ rank (run n))
    exact hn (hless _ _ (hI n) (hrun n))
  · intro t hrun ht
    have hI : I t := by
      clear ht
      induction hrun with
      | refl => exact hs
      | tail _ hst ih => exact hkeep _ _ ih hst
    exact hstop t hI ht

namespace Inevitable

variable {step : σ → σ → Prop} {P : σ → Prop} {s : σ}

theorem mono {step' : σ → σ → Prop} (h : Inevitable step P s)
    (hiff : ∀ s t, step s t ↔ step' s t) : Inevitable step' P s := by
  induction h with
  | now hs => exact .now hs
  | next hsome _ ih =>
    obtain ⟨t, ht⟩ := hsome
    exact .next ⟨t, (hiff _ _).mp ht⟩ (fun t ht ↦ ih t ((hiff _ _).mpr ht))

/-- No run goes on for ever if it ends in `P`. -/
theorem finite (hfinal : ∀ s t, P s → ¬ step s t) (h : Inevitable step P s) (run : Nat → σ)
    (hstart : run 0 = s) : ¬ ∀ n, step (run n) (run (n + 1)) := by
  induction h generalizing run with
  | now hs =>
    intro hrun
    exact hfinal _ _ hs (hstart ▸ hrun 0)
  | next _ _ ih =>
    intro hrun
    exact ih (run 1) (hstart ▸ hrun 0) (fun n ↦ run (n + 1)) rfl (fun n ↦ hrun (n + 1))

/-- A run that has come to a stop is in `P`. -/
theorem stopped (hfinal : ∀ s t, P s → ¬ step s t) (h : Inevitable step P s) {t : σ}
    (hrun : Relation.ReflTransGen step s t) (hstop : ∀ u, ¬ step t u) : P t := by
  induction h with
  | now hs =>
    obtain rfl | ⟨u, hu, -⟩ := hrun.cases_head
    · exact hs
    · exact absurd hu (hfinal _ _ hs)
  | next hsome _ ih =>
    obtain rfl | ⟨u, hu, hrest⟩ := hrun.cases_head
    · obtain ⟨u, hu⟩ := hsome
      exact absurd hu (hstop u)
    · exact ih u hu hrest

/-- What every run comes to, it still comes to further on. -/
theorem later (hfinal : ∀ s t, P s → ¬ step s t) (h : Inevitable step P s) {t : σ}
    (hrun : Relation.ReflTransGen step s t) : Inevitable step P t := by
  induction hrun with
  | refl => exact h
  | tail _ hst ih =>
    cases ih with
    | now hP => exact absurd hst (hfinal _ _ hP)
    | next _ hall => exact hall _ hst

/-- There is a run to a state of `P`. -/
theorem reaches (h : Inevitable step P s) : ∃ t, Relation.ReflTransGen step s t ∧ P t := by
  induction h with
  | now hP => exact ⟨_, .refl, hP⟩
  | next hsome _ ih =>
    obtain ⟨t, ht⟩ := hsome
    obtain ⟨u, hu, hP⟩ := ih t ht
    exact ⟨u, .head ht hu, hP⟩

/-- Every run is finite, and every run that has come to a stop is in `P`. -/
theorem ends (hfinal : ∀ s t, P s → ¬ step s t) (h : Inevitable step P s) : Ends step P s :=
  ⟨fun run hstart ↦ h.finite hfinal run hstart, fun _ hrun hstop ↦ h.stopped hfinal hrun hstop⟩

/-- Steps of `B` that can be exchanged with those of `A` may be taken at once. `E` holds where
`B` is ready: it can step, and a step of `A` neither ends that nor brings new outcomes. -/
theorem eager {A B : σ → σ → Prop} {E : σ → Prop} (hfinal : ∀ s t, P s → ¬ A s t)
    (hE : ∀ s, E s → (∃ t, B s t) ∧ ∀ s', A s s' → E s' ∧
      (∀ t, B s t → ∃ t', A t t' ∧ B s' t') ∧ ∀ t', B s' t' → ∃ t, B s t ∧ A t t')
    (hs : E s) (hall : ∀ t, B s t → Inevitable (fun s t ↦ A s t ∨ B s t) P t) :
    Inevitable (fun s t ↦ A s t ∨ B s t) P s := by
  obtain ⟨t₀, ht₀⟩ := (hE s hs).1
  have h₀ := hall t₀ ht₀
  -- The induction is on what one outcome of `B` comes to; a step of `A` is taken on it as well.
  induction h₀ generalizing s with
  | @now t₀ hP =>
    refine .next ⟨t₀, .inr ht₀⟩ (fun u hu ↦ ?_)
    obtain hu | hu := hu
    · obtain ⟨t', ht', -⟩ := ((hE s hs).2 u hu).2.1 t₀ ht₀
      exact absurd ht' (hfinal _ _ hP)
    · exact hall u hu
  | @next t₀ _ _ ih =>
    refine .next ⟨t₀, .inr ht₀⟩ (fun u hu ↦ ?_)
    obtain hu | hu := hu
    · obtain ⟨hEu, hforth, hback⟩ := (hE s hs).2 u hu
      obtain ⟨t', ht', hut'⟩ := hforth t₀ ht₀
      refine ih t' (.inl ht') hEu (fun v hv ↦ ?_) hut'
      obtain ⟨t, ht, htv⟩ := hback v hv
      cases hall t ht with
      | now hP => exact absurd htv (hfinal _ _ hP)
      | next _ hnext => exact hnext v (.inl htv)
    · exact hall u hu

end Inevitable
end NetworkFileSystem.Base
