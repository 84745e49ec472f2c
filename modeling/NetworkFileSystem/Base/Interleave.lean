import NetworkFileSystem.Base.Prog
import Mathlib.Logic.Function.Basic

/-!
# Programs that run side by side

General support. A family of programs shares one environment, which knows who performs
an operation. `Interleaved` is a run from given programs: its log holds the operations of
all of them in the order in which they were performed. What one of them contributes is an
execution of its own program.
-/

namespace NetworkFileSystem.Base

open Prog

/-- An environment that `T` many programs share. -/
structure SharedEnvironment (T Op : Type) (Res : Op → Type) (σ : Type) where
  respond : T → (o : Op) → Res o → σ → σ → Prop
  silent : σ → σ → Prop

section Interleaved

variable {T Op : Type} {Res : Op → Type} {α σ : Type} [DecidableEq T]

/-- The runs from the programs `ps` and the state `w`. -/
inductive Interleaved (E : SharedEnvironment T Op Res σ) (ps : T → Prog Op Res α) (w : σ) :
    List (T × Event Op Res) → (T → Prog Op Res α) → σ → Prop where
  | start : Interleaved E ps w [] ps w
  | silent {log : List (T × Event Op Res)} {qs : T → Prog Op Res α} {u v : σ} :
      Interleaved E ps w log qs u → E.silent u v → Interleaved E ps w log qs v
  | step {log : List (T × Event Op Res)} {qs : T → Prog Op Res α} {u v : σ} {t : T} {o : Op}
      {k : Res o → Prog Op Res α} {r : Res o} :
      Interleaved E ps w log qs u → qs t = .perform o k → E.respond t o r u v →
      Interleaved E ps w (log ++ [(t, ⟨o, r⟩)]) (Function.update qs t (k r)) v

/-- The events of one program. -/
def own (t : T) (log : List (T × Event Op Res)) : List (Event Op Res) :=
  log.filterMap (fun x ↦ if x.1 = t then some x.2 else none)

@[simp] theorem own_append (t : T) (log₁ log₂ : List (T × Event Op Res)) :
    own t (log₁ ++ log₂) = own t log₁ ++ own t log₂ :=
  List.filterMap_append

@[simp] theorem own_singleton (t s : T) (e : Event Op Res) :
    own t [(s, e)] = if s = t then [e] else [] := by
  by_cases h : s = t <;> simp [own, h]

theorem mem_own {t : T} {log : List (T × Event Op Res)} {e : Event Op Res} :
    e ∈ own t log ↔ (t, e) ∈ log := by
  simp [own]

/-- An environment that allows more has more runs. -/
theorem Interleaved.mono {E F : SharedEnvironment T Op Res σ} {ps qs : T → Prog Op Res α}
    {w v : σ} {log : List (T × Event Op Res)}
    (hrespond : ∀ t o r u v, E.respond t o r u v → F.respond t o r u v)
    (hsilent : ∀ u v, E.silent u v → F.silent u v) (h : Interleaved E ps w log qs v) :
    Interleaved F ps w log qs v := by
  induction h with
  | start => exact .start
  | silent _ hs ih => exact .silent ih (hsilent _ _ hs)
  | step _ hq hr ih => exact .step ih hq (hrespond _ _ _ _ _ hr)

/-- What is left of a program continues what it has done. -/
theorem Interleaved.exec_append {E : SharedEnvironment T Op Res σ} {ps qs : T → Prog Op Res α}
    {w v : σ} {log : List (T × Event Op Res)} (h : Interleaved E ps w log qs v) (t : T)
    {tr : List (Event Op Res)} {out : Option α} (hx : Exec (qs t) tr out) :
    Exec (ps t) (own t log ++ tr) out := by
  induction h generalizing tr with
  | start => exact hx
  | silent _ _ ih => exact ih hx
  | @step log qs u v s o k r _ hs _ ih =>
    by_cases hst : s = t
    · subst hst
      rw [Function.update_self] at hx
      rw [own_append, own_singleton, if_pos rfl, List.append_assoc]
      refine ih ?_
      rw [hs]
      exact ⟨r, tr, rfl, hx⟩
    · rw [Function.update_of_ne (Ne.symm hst)] at hx
      rw [own_append, own_singleton, if_neg hst, List.append_nil]
      exact ih hx

/-- A program that has ended has executed its events. -/
theorem Interleaved.exec {E : SharedEnvironment T Op Res σ} {ps qs : T → Prog Op Res α}
    {w v : σ} {log : List (T × Event Op Res)} (h : Interleaved E ps w log qs v) {t : T} {a : α}
    (ht : qs t = .ret a) : Exec (ps t) (own t log) (some a) := by
  have hx : Exec (qs t) [] (some a) := by
    rw [ht]
    exact ⟨rfl, rfl⟩
  simpa using h.exec_append t hx

end Interleaved

end NetworkFileSystem.Base
