import NetworkFileSystem.Base.Prog
import NetworkFileSystem.Base.Transition

/-!
# What a program comes to

General support. An environment with a state of its own answers the operations of a program.
`wp p Q` holds in a state from which every run of `p` comes to an end, returns, and leaves `Q`;
it is computed along the program, part by part for a sequence. Two programs agree on some of the
answers if they cannot be told apart by them.
-/

namespace NetworkFileSystem.Base

/-- How operations may be answered, and what the environment is left in. -/
abbrev Answers (Op : Type) (Res : Op → Type) (σ : Type) : Type := (o : Op) → Res o → σ → σ → Prop

namespace Prog

variable {Op : Type} {Res : Op → Type} {σ α β : Type}

/-- The next operation of a program is answered. -/
inductive Answered (answers : Answers Op Res σ) : Prog Op Res α × σ → Prog Op Res α × σ → Prop where
  | perform {o : Op} {r : Res o} {k : Res o → Prog Op Res α} {w w' : σ} :
      answers o r w w' → Answered answers (.perform o k, w) (k r, w')

/-- Every run of the program returns, and `Q` holds then. -/
def wp (answers : Answers Op Res σ) : Prog Op Res α → (α → σ → Prop) → σ → Prop
  | .ret a, Q, w => Q a w
  | .abort, _, _ => False
  | .perform o k, Q, w =>
    (∃ r w', answers o r w w') ∧ ∀ r w', answers o r w w' → wp answers (k r) Q w'

section Wp

variable {answers : Answers Op Res σ} {Q : α → σ → Prop} {w : σ}

theorem wp_call_bind {o : Op} {k : Res o → Prog Op Res α} :
    wp answers (call o >>= k) Q w ↔
      (∃ r w', answers o r w w') ∧ ∀ r w', answers o r w w' → wp answers (k r) Q w' := Iff.rfl

/-- An operation that can be answered in one way only. -/
theorem wp_call_bind_of_eq {o : Op} {k : Res o → Prog Op Res α} {r₀ : Res o} {w₀ : σ}
    (h : ∀ r w', answers o r w w' ↔ r = r₀ ∧ w' = w₀) (hk : wp answers (k r₀) Q w₀) :
    wp answers (call o >>= k) Q w := by
  refine ⟨⟨r₀, w₀, (h r₀ w₀).mpr ⟨rfl, rfl⟩⟩, fun r w' hans ↦ ?_⟩
  obtain ⟨rfl, rfl⟩ := (h r w').mp hans
  exact hk

/-- A sequence does what its second part does where the first one returns. -/
theorem wp_bind {p : Prog Op Res α} {f : α → Prog Op Res β} {Q : β → σ → Prop} :
    wp answers (p >>= f) Q w ↔ wp answers p (fun a ↦ wp answers (f a) Q) w := by
  change wp answers (p.bind f) Q w ↔ _
  induction p generalizing w with
  | ret a => rfl
  | abort => rfl
  | perform o k ih =>
    simp only [bind, wp]
    exact and_congr_right (fun _ ↦ forall₃_congr (fun r w' _ ↦ ih r))

/-- A value that is defined. -/
theorem wp_ofOption_bind {x : Option α} {a : α} {f : α → Prog Op Res β} {Q : β → σ → Prop}
    (hx : x = some a) (h : wp answers (f a) Q w) : wp answers (ofOption x >>= f) Q w := by
  rw [hx]
  exact h

/-- Where `wp` holds, no run goes on for ever, gets stuck or aborts. -/
theorem ends_of_wp {p : Prog Op Res α} (h : wp answers p Q w) :
    Ends (Answered answers) (fun s ↦ ∃ a, s.1 = .ret a ∧ Q a s.2) (p, w) := by
  have hinevitable : Inevitable (Answered answers) (fun s ↦ ∃ a, s.1 = .ret a ∧ Q a s.2) (p, w) := by
    induction p generalizing w with
    | ret a => exact .now ⟨a, rfl, h⟩
    | abort => exact absurd h id
    | perform o k ih =>
      obtain ⟨⟨r, w', hans⟩, hall⟩ := h
      refine .next ⟨_, .perform hans⟩ (fun t ht ↦ ?_)
      cases ht with
      | perform hans => exact ih _ (hall _ _ hans)
  refine hinevitable.ends (fun s t hs hst ↦ ?_)
  obtain ⟨a, ha, -⟩ := hs
  cases hst
  cases ha

end Wp

/-! ### Programs that agree -/

/-- The programs do the same as long as all answers are among the given ones, and return values
in relation. -/
def Agree (ok : (o : Op) → Res o → Prop) (R : α → β → Prop) :
    Prog Op Res α → Prog Op Res β → Prop
  | .ret a, q => ∃ b, q = .ret b ∧ R a b
  | .abort, q => q = .abort
  | .perform o k, q => ∃ k', q = .perform o k' ∧ ∀ r, ok o r → Agree ok R (k r) (k' r)

section Agree

variable {ok : (o : Op) → Res o → Prop} {R : α → β → Prop}

theorem agree_pure {a : α} {b : β} (h : R a b) :
    Agree ok R (pure a : Prog Op Res α) (pure b) :=
  ⟨b, rfl, h⟩

theorem agree_call_bind {o : Op} {k : Res o → Prog Op Res α} {k' : Res o → Prog Op Res β}
    (h : ∀ r, ok o r → Agree ok R (k r) (k' r)) : Agree ok R (call o >>= k) (call o >>= k') :=
  ⟨k', rfl, h⟩

/-- Sequences agree if their parts do. -/
theorem Agree.bind {γ δ : Type} {S : γ → δ → Prop} {p : Prog Op Res α} {q : Prog Op Res β}
    {f : α → Prog Op Res γ} {g : β → Prog Op Res δ} (h : Agree ok R p q)
    (hfg : ∀ a b, R a b → Agree ok S (f a) (g b)) : Agree ok S (p >>= f) (q >>= g) := by
  change Agree ok S (p.bind f) (q.bind g)
  induction p generalizing q with
  | ret a =>
    obtain ⟨b, rfl, hab⟩ := h
    exact hfg a b hab
  | abort =>
    cases h
    rfl
  | perform o k ih =>
    obtain ⟨k', rfl, hk⟩ := h
    exact ⟨_, rfl, fun r hr ↦ ih r (hk r hr)⟩

/-- Agreeing programs have the same runs with answers of the given kind. -/
theorem Agree.exec_iff {p q : Prog Op Res α} (h : Agree ok Eq p q) {tr : List (Event Op Res)}
    {out : Option α} (hok : ∀ e ∈ tr, ok e.1 e.2) : Exec p tr out ↔ Exec q tr out := by
  induction p generalizing q tr with
  | ret a =>
    obtain ⟨_, rfl, rfl⟩ := h
    rfl
  | abort =>
    cases h
    rfl
  | perform o k ih =>
    obtain ⟨k', rfl, hk⟩ := h
    refine exists_congr (fun r ↦ exists_congr (fun rest ↦ and_congr_right ?_))
    rintro rfl
    exact ih r (hk r (hok ⟨o, r⟩ List.mem_cons_self))
      (fun e he ↦ hok e (List.mem_cons_of_mem _ he))

end Agree
end Prog
end NetworkFileSystem.Base
