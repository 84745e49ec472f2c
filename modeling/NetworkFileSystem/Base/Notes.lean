import NetworkFileSystem.Base.Prog

/-!
# Programs with notes

General support. A program may note what it is about to do, as an operation without an
outcome. `erase` is the program without its notes: the two perform the same operations,
and a trace of the program with notes is a trace of the other one with notes in between.
-/

namespace NetworkFileSystem.Base

/-- The operations `Op`, and notes. -/
inductive Noted (Op N : Type) where
  | op (o : Op)
  | note (n : N)
  deriving DecidableEq

namespace Noted

variable {Op N : Type} {Res : Op → Type} {α β : Type}

/-- The outcomes of an operation; a note has none. -/
@[reducible] def Out (Res : Op → Type) : Noted Op N → Type
  | .op o => Res o
  | .note _ => Unit

/-- A program that notes `n`. -/
def write (n : N) : Prog (Noted Op N) (Noted.Out Res) Unit := .perform (.note n) .ret

/-- A program without notes. -/
def lift : Prog Op Res α → Prog (Noted Op N) (Noted.Out Res) α
  | .ret a => .ret a
  | .abort => .abort
  | .perform o k => .perform (.op o) (fun r ↦ lift (k r))

/-- The program without its notes. -/
def erase : Prog (Noted Op N) (Noted.Out Res) α → Prog Op Res α
  | .ret a => .ret a
  | .abort => .abort
  | .perform (.op o) k => .perform o (fun r ↦ erase (k r))
  | .perform (.note _) k => erase (k ())

/-- The notes of a trace, in order. -/
def notes (tr : List (Event (Noted Op N) (Noted.Out Res))) : List N :=
  tr.filterMap (fun e ↦ match e with
    | ⟨.op _, _⟩ => none
    | ⟨.note n, _⟩ => some n)

/-- The operations of a trace, in order. -/
def plain (tr : List (Event (Noted Op N) (Noted.Out Res))) : List (Event Op Res) :=
  tr.filterMap (fun e ↦ match e with
    | ⟨.op o, r⟩ => some ⟨o, r⟩
    | ⟨.note _, _⟩ => none)

@[simp] theorem notes_append (tr₁ tr₂ : List (Event (Noted Op N) (Noted.Out Res))) :
    notes (tr₁ ++ tr₂) = notes tr₁ ++ notes tr₂ :=
  List.filterMap_append

@[simp] theorem plain_append (tr₁ tr₂ : List (Event (Noted Op N) (Noted.Out Res))) :
    plain (tr₁ ++ tr₂) = plain tr₁ ++ plain tr₂ :=
  List.filterMap_append

/-! ### Erasing -/

@[simp] theorem erase_lift (p : Prog Op Res α) : erase (N := N) (lift p) = p := by
  induction p with
  | ret a => rfl
  | abort => rfl
  | perform o k ih => exact congrArg (Prog.perform o) (funext ih)

@[simp] theorem erase_pure (a : α) :
    erase (pure a : Prog (Noted Op N) (Noted.Out Res) α) = pure a := rfl

@[simp] theorem erase_abort :
    erase (.abort : Prog (Noted Op N) (Noted.Out Res) α) = .abort := rfl

@[simp] theorem erase_ofOption (x : Option α) :
    erase (Prog.ofOption x : Prog (Noted Op N) (Noted.Out Res) α) = Prog.ofOption x := by
  cases x <;> rfl

theorem erase_bind (p : Prog (Noted Op N) (Noted.Out Res) α)
    (f : α → Prog (Noted Op N) (Noted.Out Res) β) :
    erase (p >>= f) = erase p >>= fun a ↦ erase (f a) := by
  change erase (p.bind f) = (erase p).bind _
  induction p with
  | ret a => rfl
  | abort => rfl
  | perform o k ih =>
    cases o with
    | op o => exact congrArg (Prog.perform o) (funext ih)
    | note n => exact ih ()

@[simp] theorem erase_write_bind (n : N) (f : Unit → Prog (Noted Op N) (Noted.Out Res) α) :
    erase (write n >>= f) = erase (f ()) := rfl

/-! ### Traces -/

open Prog

/-- Without its notes, an execution is one of the program without notes. -/
theorem exec_erase {p : Prog (Noted Op N) (Noted.Out Res) α}
    {tr : List (Event (Noted Op N) (Noted.Out Res))} {out : Option α} (h : Exec p tr out) :
    Exec (erase p) (plain tr) out := by
  induction p generalizing tr with
  | ret a =>
    obtain ⟨rfl, rfl⟩ := h
    exact ⟨rfl, rfl⟩
  | abort =>
    obtain ⟨rfl, rfl⟩ := h
    exact ⟨rfl, rfl⟩
  | perform o k ih =>
    obtain ⟨r, rest, rfl, hrest⟩ := h
    cases o with
    | op o => exact ⟨r, plain rest, rfl, ih r hrest⟩
    | note n =>
      have hk : Exec (erase (k ())) (plain rest) out := ih r hrest
      exact hk

/-- Every execution of the program without notes is one with notes. -/
theorem exec_of_erase {p : Prog (Noted Op N) (Noted.Out Res) α} {tr : List (Event Op Res)}
    {out : Option α} (h : Exec (erase p) tr out) : ∃ tr', Exec p tr' out ∧ plain tr' = tr := by
  induction p generalizing tr with
  | ret a =>
    obtain ⟨rfl, rfl⟩ := h
    exact ⟨[], ⟨rfl, rfl⟩, rfl⟩
  | abort =>
    obtain ⟨rfl, rfl⟩ := h
    exact ⟨[], ⟨rfl, rfl⟩, rfl⟩
  | perform o k ih =>
    cases o with
    | op o =>
      obtain ⟨r, rest, rfl, hrest⟩ := h
      obtain ⟨tr', hx, rfl⟩ := ih r hrest
      exact ⟨⟨.op o, r⟩ :: tr', ⟨r, tr', rfl, hx⟩, rfl⟩
    | note n =>
      obtain ⟨tr', hx, rfl⟩ := ih () h
      exact ⟨⟨.note n, ()⟩ :: tr', ⟨(), tr', rfl, hx⟩, rfl⟩

/-- A part without notes notes nothing. -/
theorem notes_lift {p : Prog Op Res α} {tr : List (Event (Noted Op N) (Noted.Out Res))}
    {out : Option α} (h : Exec (lift p) tr out) : notes tr = [] ∧ Exec p (plain tr) out := by
  refine ⟨?_, by simpa using exec_erase h⟩
  induction p generalizing tr with
  | ret a => simp [h.1, notes]
  | abort => simp [h.1, notes]
  | perform o k ih =>
    obtain ⟨r, rest, rfl, hrest⟩ := h
    have hk : notes rest = [] := ih r hrest
    exact hk

/-- What holds of all notes holds of a program without any. -/
theorem only_lift {P : Noted Op N → Prop} (hP : ∀ o, P (.op o)) (p : Prog Op Res α) :
    Only P (lift p : Prog (Noted Op N) (Noted.Out Res) α) := by
  induction p with
  | ret a => trivial
  | abort => trivial
  | perform o k ih => exact ⟨hP o, ih⟩

theorem mem_notes {tr : List (Event (Noted Op N) (Noted.Out Res))} {n : N} :
    n ∈ notes tr ↔ ∃ e ∈ tr, e.1 = .note n := by
  simp only [notes, List.mem_filterMap]
  constructor
  · rintro ⟨⟨o, r⟩, he, hn⟩
    cases o with
    | op o => cases hn
    | note m =>
      cases hn
      exact ⟨_, he, rfl⟩
  · rintro ⟨⟨o, r⟩, he, rfl⟩
    exact ⟨_, he, rfl⟩

theorem exec_write {n : N} {f : Unit → Prog (Noted Op N) (Noted.Out Res) α}
    {tr : List (Event (Noted Op N) (Noted.Out Res))} {out : Option α} :
    Exec (write n >>= f) tr out ↔ ∃ rest, tr = ⟨.note n, ()⟩ :: rest ∧ Exec (f ()) rest out :=
  ⟨fun ⟨(), rest, htr, hx⟩ ↦ ⟨rest, htr, hx⟩, fun ⟨rest, htr, hx⟩ ↦ ⟨(), rest, htr, hx⟩⟩

end Noted
end NetworkFileSystem.Base
