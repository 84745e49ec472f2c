import NetworkFileSystem.Base.Prog
import NetworkFileSystem.Base.Transition

/-!
# Two programs over a shared world

General support. Two programs run side by side; the world answers their operations and
changes with them. Where operations of the two can be exchanged, what every run comes to
can be found on one of them: an operation that is ready may be performed at once, in
all its outcomes, whatever the other program could do first.
-/

namespace NetworkFileSystem.Base

/-- How the operations of two programs are answered. -/
structure Duet (Op₁ Op₂ : Type) (Res₁ : Op₁ → Type) (Res₂ : Op₂ → Type) (σ : Type) where
  answer₁ : (o : Op₁) → Res₁ o → σ → σ → Prop
  answer₂ : (o : Op₂) → Res₂ o → σ → σ → Prop

namespace Duet

variable {Op₁ Op₂ : Type} {Res₁ : Op₁ → Type} {Res₂ : Op₂ → Type} {σ α β : Type}

/-- The programs with what is left of them, and the world. -/
structure State (Op₁ Op₂ : Type) (Res₁ : Op₁ → Type) (Res₂ : Op₂ → Type) (σ α β : Type) where
  first : Prog Op₁ Res₁ α
  second : Prog Op₂ Res₂ β
  world : σ

/-- The first program performs its next operation. -/
inductive First (D : Duet Op₁ Op₂ Res₁ Res₂ σ) :
    State Op₁ Op₂ Res₁ Res₂ σ α β → State Op₁ Op₂ Res₁ Res₂ σ α β → Prop where
  | perform {o : Op₁} {r : Res₁ o} {k : Res₁ o → Prog Op₁ Res₁ α} {q : Prog Op₂ Res₂ β} {w w' : σ} :
      D.answer₁ o r w w' → First D ⟨.perform o k, q, w⟩ ⟨k r, q, w'⟩

/-- The second program performs its next operation. -/
inductive Second (D : Duet Op₁ Op₂ Res₁ Res₂ σ) :
    State Op₁ Op₂ Res₁ Res₂ σ α β → State Op₁ Op₂ Res₁ Res₂ σ α β → Prop where
  | perform {o : Op₂} {r : Res₂ o} {k : Res₂ o → Prog Op₂ Res₂ β} {p : Prog Op₁ Res₁ α} {w w' : σ} :
      D.answer₂ o r w w' → Second D ⟨p, .perform o k, w⟩ ⟨p, k r, w'⟩

/-- One of the programs performs its next operation. -/
def Step (D : Duet Op₁ Op₂ Res₁ Res₂ σ) (s t : State Op₁ Op₂ Res₁ Res₂ σ α β) : Prop :=
  D.First s t ∨ D.Second s t

/-- Operations of the two programs can be exchanged. An operation that is ready in a world can
be answered, stays ready, and gets no further outcomes from what the other program does. -/
structure Independent (D : Duet Op₁ Op₂ Res₁ Res₂ σ) (ready₁ : Op₁ → σ → Prop)
    (ready₂ : Op₂ → σ → Prop) : Prop where
  exchange : ∀ {o r o' r' w w₁ w₂}, D.answer₁ o r w w₁ → D.answer₂ o' r' w w₂ →
    ∃ w₃, D.answer₂ o' r' w₁ w₃ ∧ D.answer₁ o r w₂ w₃
  answered₁ : ∀ {o w}, ready₁ o w → ∃ r w', D.answer₁ o r w w'
  stays₁ : ∀ {o o' r' w w'}, ready₁ o w → D.answer₂ o' r' w w' → ready₁ o w'
  already₁ : ∀ {o r o' r' w w₂ w₃}, ready₁ o w → D.answer₂ o' r' w w₂ → D.answer₁ o r w₂ w₃ →
    ∃ w₁, D.answer₁ o r w w₁ ∧ D.answer₂ o' r' w₁ w₃
  answered₂ : ∀ {o w}, ready₂ o w → ∃ r w', D.answer₂ o r w w'
  stays₂ : ∀ {o o' r' w w'}, ready₂ o w → D.answer₁ o' r' w w' → ready₂ o w'
  already₂ : ∀ {o r o' r' w w₁ w₃}, ready₂ o w → D.answer₁ o' r' w w₁ → D.answer₂ o r w₁ w₃ →
    ∃ w₂, D.answer₂ o r w w₂ ∧ D.answer₁ o' r' w₂ w₃

variable {D : Duet Op₁ Op₂ Res₁ Res₂ σ} {ready₁ : Op₁ → σ → Prop} {ready₂ : Op₂ → σ → Prop}
  {P : State Op₁ Op₂ Res₁ Res₂ σ α β → Prop}

/-- A ready operation of the first program may be performed at once. -/
theorem Independent.first (h : D.Independent ready₁ ready₂) (hfinal : ∀ s t, P s → ¬ D.Step s t)
    {o : Op₁} {k : Res₁ o → Prog Op₁ Res₁ α} {q : Prog Op₂ Res₂ β} {w : σ} (hready : ready₁ o w)
    (hall : ∀ r w', D.answer₁ o r w w' → Inevitable D.Step P ⟨k r, q, w'⟩) :
    Inevitable D.Step P ⟨.perform o k, q, w⟩ := by
  have heager := Inevitable.eager (A := D.Second) (B := D.First) (P := P)
    (E := fun s ↦ ∃ q w, s = ⟨.perform o k, q, w⟩ ∧ ready₁ o w)
    (fun s t hs hst ↦ hfinal s t hs (.inr hst)) ?_ (s := ⟨.perform o k, q, w⟩) ⟨q, w, rfl, hready⟩ ?_
  · exact heager.mono (fun s t ↦ Or.comm)
  · rintro _ ⟨q, w, rfl, hw⟩
    obtain ⟨r, w', hans⟩ := h.answered₁ hw
    refine ⟨⟨_, .perform hans⟩, ?_⟩
    rintro _ ⟨hans'⟩
    refine ⟨⟨_, _, rfl, h.stays₁ hw hans'⟩, ?_, ?_⟩
    · rintro _ ⟨hans⟩
      obtain ⟨w₃, h₂, h₁⟩ := h.exchange hans hans'
      exact ⟨_, .perform h₂, .perform h₁⟩
    · rintro _ ⟨hans⟩
      obtain ⟨w₁, h₁, h₂⟩ := h.already₁ hw hans' hans
      exact ⟨_, .perform h₁, .perform h₂⟩
  · rintro _ ⟨hans⟩
    exact (hall _ _ hans).mono (fun s t ↦ Or.comm)

/-- A ready operation of the second program may be performed at once. -/
theorem Independent.second (h : D.Independent ready₁ ready₂) (hfinal : ∀ s t, P s → ¬ D.Step s t)
    {o : Op₂} {k : Res₂ o → Prog Op₂ Res₂ β} {p : Prog Op₁ Res₁ α} {w : σ} (hready : ready₂ o w)
    (hall : ∀ r w', D.answer₂ o r w w' → Inevitable D.Step P ⟨p, k r, w'⟩) :
    Inevitable D.Step P ⟨p, .perform o k, w⟩ := by
  refine Inevitable.eager (A := D.First) (B := D.Second) (P := P)
    (E := fun s ↦ ∃ p w, s = ⟨p, .perform o k, w⟩ ∧ ready₂ o w)
    (fun s t hs hst ↦ hfinal s t hs (.inl hst)) ?_ ⟨p, w, rfl, hready⟩ ?_
  · rintro _ ⟨p, w, rfl, hw⟩
    obtain ⟨r, w', hans⟩ := h.answered₂ hw
    refine ⟨⟨_, .perform hans⟩, ?_⟩
    rintro _ ⟨hans'⟩
    refine ⟨⟨_, _, rfl, h.stays₂ hw hans'⟩, ?_, ?_⟩
    · rintro _ ⟨hans⟩
      obtain ⟨w₃, h₂, h₁⟩ := h.exchange hans' hans
      exact ⟨_, .perform h₁, .perform h₂⟩
    · rintro _ ⟨hans⟩
      obtain ⟨w₂, h₂, h₁⟩ := h.already₂ hw hans' hans
      exact ⟨_, .perform h₂, .perform h₁⟩
  · rintro _ ⟨hans⟩
    exact hall _ _ hans

end Duet
end NetworkFileSystem.Base
