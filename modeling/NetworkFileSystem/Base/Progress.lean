import NetworkFileSystem.Base.Interleave
import NetworkFileSystem.Base.Transition
import Mathlib.Data.DFinsupp.WellFounded
import Mathlib.SetTheory.Ordinal.Rank

/-!
# Programs that run side by side come to an end

General support. A program is a finite tree in depth, though not in breadth, so finitely many
programs that run side by side come to a stop in every interleaving. What remains to be seen
is where they may stop.
-/

namespace NetworkFileSystem.Base

namespace Prog

variable {Op : Type} {Res : Op → Type} {α : Type}

/-- The program `p` is what is left of `q` behind its next operation. -/
inductive Rest : Prog Op Res α → Prog Op Res α → Prop where
  | behind (o : Op) (k : Res o → Prog Op Res α) (r : Res o) : Rest (k r) (.perform o k)

theorem wellFounded_rest : WellFounded (Rest : Prog Op Res α → Prog Op Res α → Prop) := by
  refine ⟨fun p ↦ ?_⟩
  induction p with
  | ret a => exact ⟨_, fun _ h ↦ nomatch h⟩
  | abort => exact ⟨_, fun _ h ↦ nomatch h⟩
  | perform o k ih =>
    refine ⟨_, fun q h ↦ ?_⟩
    cases h with
    | behind _ _ r => exact ih r

/-- How long a program may go on. -/
noncomputable def length (p : Prog Op Res α) : Ordinal.{0} :=
  haveI : IsWellFounded (Prog Op Res α) Rest := ⟨wellFounded_rest⟩
  IsWellFounded.rank Rest p

theorem length_rest (o : Op) (k : Res o → Prog Op Res α) (r : Res o) :
    (k r).length < (Prog.perform o k).length :=
  haveI : IsWellFounded (Prog Op Res α) Rest := ⟨wellFounded_rest⟩
  IsWellFounded.rank_lt_of_rel (.behind o k r)

end Prog

variable {T Op : Type} {Res : Op → Type} {α σ : Type} [DecidableEq T]

/-- One of the programs performs its next operation. -/
inductive SharedEnvironment.Step (E : SharedEnvironment T Op Res σ) :
    (T → Prog Op Res α) × σ → (T → Prog Op Res α) × σ → Prop where
  | perform {qs : T → Prog Op Res α} {u v : σ} {t : T} {o : Op} {k : Res o → Prog Op Res α}
      {r : Res o} : qs t = .perform o k → E.respond t o r u v →
      Step E (qs, u) (Function.update qs t (k r), v)

/-- A step goes on with the run that has led there. -/
theorem Interleaved.exists_step {E : SharedEnvironment T Op Res σ} {ps qs qs' : T → Prog Op Res α}
    {w u v : σ} {log : List (T × Event Op Res)} (h : Interleaved E ps w log qs u)
    (hs : E.Step (qs, u) (qs', v)) : ∃ log', Interleaved E ps w log' qs' v := by
  cases hs with
  | perform hq hr => exact ⟨_, .step h hq hr⟩

/-- Finitely many programs that run side by side come to an end, where nothing can be performed
any more. -/
theorem Interleaved.ends [Finite T] {E : SharedEnvironment T Op Res σ} {ps : T → Prog Op Res α}
    {w : σ} {P : (T → Prog Op Res α) × σ → Prop}
    (hstop : ∀ log qs v, Interleaved E ps w log qs v → (∀ t, ¬ E.Step (qs, v) t) → P (qs, v)) :
    Ends E.Step P (ps, w) := by
  refine .of_rank (I := fun s ↦ ∃ log, Interleaved E ps w log s.1 s.2)
    (wellFounded_lt (α := T → Ordinal.{0})) (fun s t ↦ (s.1 t).length) ⟨[], .start⟩ ?_ ?_ ?_
  · rintro s t ⟨log, hrun⟩ hs
    exact hrun.exists_step hs
  · rintro s t - hs
    cases hs with
    | @perform qs u v t o k r hq hr =>
      refine Pi.lt_def.mpr ⟨fun x ↦ ?_, t, ?_⟩
      · by_cases hx : x = t
        · subst hx
          simp only [Function.update_self, hq]
          exact (Prog.length_rest o k r).le
        · simp [Function.update_of_ne hx]
      · simp only [Function.update_self, hq]
        exact Prog.length_rest o k r
  · rintro s ⟨log, hrun⟩ hs
    exact hstop log s.1 s.2 hrun hs

end NetworkFileSystem.Base
