import Mathlib.Data.Sigma.Basic
import Mathlib.Data.List.Basic
import Mathlib.Logic.Relation

/-!
# Programs that interact with an environment

General support. A `Prog` is a finite tree of operations whose outcomes the
environment chooses; `abort` is a run that leaves defined behaviour. `Exec p tr out`
says that `p` may perform the operations of `tr` with the outcomes recorded there
and then end in `out`, where `none` is `abort`. An environment with a state of its
own accepts a trace step by step and may take silent steps in between; a joint run
is a trace that the program executes and the environment accepts.
-/

namespace NetworkFileSystem.Base

/-- Programs over the operations `Op`; operation `o` is answered in `Res o`. -/
inductive Prog (Op : Type) (Res : Op → Type) (α : Type) : Type where
  | ret (a : α)
  | abort
  | perform (o : Op) (k : Res o → Prog Op Res α)

/-- An operation with the outcome the environment chose. -/
abbrev Event (Op : Type) (Res : Op → Type) : Type := Σ o : Op, Res o

namespace Prog

variable {Op : Type} {Res : Op → Type} {α β : Type}

/-- Continue with the value of a program; an abort stays one. -/
def bind : Prog Op Res α → (α → Prog Op Res β) → Prog Op Res β
  | .ret a, f => f a
  | .abort, _ => .abort
  | .perform o k, f => .perform o (fun r ↦ (k r).bind f)

instance : Monad (Prog Op Res) where
  pure := Prog.ret
  bind := Prog.bind

private theorem bind_ret (p : Prog Op Res α) : p.bind .ret = p := by
  induction p with
  | ret a => rfl
  | abort => rfl
  | perform o k ih => simp [bind, ih]

private theorem bind_bind {γ : Type} (p : Prog Op Res α) (f : α → Prog Op Res β)
    (g : β → Prog Op Res γ) : (p.bind f).bind g = p.bind (fun a ↦ (f a).bind g) := by
  induction p with
  | ret a => rfl
  | abort => rfl
  | perform o k ih => simp [bind, ih]

instance : LawfulMonad (Prog Op Res) :=
  LawfulMonad.mk' (Prog Op Res) bind_ret (fun _ _ ↦ rfl) bind_bind

/-- Perform one operation and return its outcome. -/
def call (o : Op) : Prog Op Res (Res o) := .perform o .ret

/-- A value that may be undefined. -/
def ofOption : Option α → Prog Op Res α
  | some a => .ret a
  | none => .abort

/-- The traces of a program with what they end in. -/
def Exec : Prog Op Res α → List (Event Op Res) → Option α → Prop
  | .ret a, tr, out => tr = [] ∧ out = some a
  | .abort, tr, out => tr = [] ∧ out = none
  | .perform o k, tr, out => ∃ r rest, tr = ⟨o, r⟩ :: rest ∧ Exec (k r) rest out

@[simp] theorem exec_pure {a : α} {tr : List (Event Op Res)} {out : Option α} :
    Exec (pure a : Prog Op Res α) tr out ↔ tr = [] ∧ out = some a := Iff.rfl

@[simp] theorem exec_abort {tr : List (Event Op Res)} {out : Option α} :
    Exec (.abort : Prog Op Res α) tr out ↔ tr = [] ∧ out = none := Iff.rfl

@[simp] theorem exec_ofOption {x : Option α} {tr : List (Event Op Res)} {out : Option α} :
    Exec (ofOption x) tr out ↔ tr = [] ∧ out = x := by
  cases x <;> rfl

/-- An operation followed by the rest of the program. -/
@[simp] theorem exec_call_bind {o : Op} {f : Res o → Prog Op Res α} {tr : List (Event Op Res)}
    {out : Option α} :
    Exec (call o >>= f) tr out ↔ ∃ r rest, tr = ⟨o, r⟩ :: rest ∧ Exec (f r) rest out := Iff.rfl

/-- A run of a sequence is a run of its first part, which aborts or hands over. -/
theorem exec_bind {p : Prog Op Res α} {f : α → Prog Op Res β} {tr : List (Event Op Res)}
    {out : Option β} :
    Exec (p >>= f) tr out ↔
      (Exec p tr none ∧ out = none) ∨
        ∃ a tr₁ tr₂, tr = tr₁ ++ tr₂ ∧ Exec p tr₁ (some a) ∧ Exec (f a) tr₂ out := by
  change Exec (p.bind f) tr out ↔ _
  induction p generalizing tr with
  | ret a => simp [bind, Exec]
  | abort => simp [bind, Exec]
  | perform o k ih =>
    simp only [bind, Exec, ih]
    constructor
    · rintro ⟨r, rest, rfl, ⟨h, rfl⟩ | ⟨a, tr₁, tr₂, rfl, h₁, h₂⟩⟩
      · exact .inl ⟨⟨r, rest, rfl, h⟩, rfl⟩
      · exact .inr ⟨a, ⟨o, r⟩ :: tr₁, tr₂, rfl, ⟨r, tr₁, rfl, h₁⟩, h₂⟩
    · rintro (⟨⟨r, rest, rfl, h⟩, rfl⟩ | ⟨a, _, tr₂, rfl, ⟨r, tr₁, rfl, h₁⟩, h₂⟩)
      · exact ⟨r, rest, rfl, .inl ⟨h, rfl⟩⟩
      · exact ⟨r, tr₁ ++ tr₂, rfl, .inr ⟨a, tr₁, tr₂, rfl, h₁, h₂⟩⟩

/-- A run of a sequence that comes back is a run of each part. -/
theorem exec_bind_some {p : Prog Op Res α} {f : α → Prog Op Res β} {tr : List (Event Op Res)}
    {b : β} (h : Exec (p >>= f) tr (some b)) :
    ∃ a tr₁ tr₂, tr = tr₁ ++ tr₂ ∧ Exec p tr₁ (some a) ∧ Exec (f a) tr₂ (some b) := by
  obtain ⟨-, hout⟩ | h := exec_bind.mp h
  · cases hout
  · exact h

/-- An undefined value aborts what would continue with it. -/
theorem exec_ofOption_bind {x : Option α} {f : α → Prog Op Res β} {tr : List (Event Op Res)}
    {out : Option β} :
    Exec (ofOption x >>= f) tr out ↔
      (x = none ∧ tr = [] ∧ out = none) ∨ ∃ a, x = some a ∧ Exec (f a) tr out := by
  cases x with
  | none => simp [exec_bind]
  | some a => simp [exec_bind]

/-- Every operation that the program may perform satisfies `P`. -/
def Only (P : Op → Prop) : Prog Op Res α → Prop
  | .ret _ => True
  | .abort => True
  | .perform o k => P o ∧ ∀ r, Only P (k r)

theorem only_bind {P : Op → Prop} {p : Prog Op Res α} {f : α → Prog Op Res β} (hp : Only P p)
    (hf : ∀ a, Only P (f a)) : Only P (p >>= f) := by
  change Only P (p.bind f)
  induction p with
  | ret a => exact hf a
  | abort => trivial
  | perform o k ih => exact ⟨hp.1, fun r ↦ ih r (hp.2 r)⟩

theorem Only.exec {P : Op → Prop} {p : Prog Op Res α} (h : Only P p) {tr : List (Event Op Res)}
    {out : Option α} (hx : Exec p tr out) : ∀ e ∈ tr, P e.1 := by
  induction p generalizing tr with
  | ret a => simp [hx.1]
  | abort => simp [hx.1]
  | perform o k ih =>
    obtain ⟨r, rest, rfl, hrest⟩ := hx
    simp only [List.mem_cons, forall_eq_or_imp]
    exact ⟨h.1, ih r (h.2 r) hrest⟩

/-- The end of a program on a given trace, if the program performs exactly that trace. -/
def replay [DecidableEq Op] : Prog Op Res α → List (Event Op Res) → Option (Option α)
  | .ret a, [] => some (some a)
  | .abort, [] => some none
  | .perform o k, e :: rest => if h : e.1 = o then replay (k (h ▸ e.2)) rest else none
  | _, _ => none

theorem exec_of_replay [DecidableEq Op] {p : Prog Op Res α} {tr : List (Event Op Res)}
    {out : Option α} (h : p.replay tr = some out) : Exec p tr out := by
  induction p generalizing tr with
  | ret a =>
    cases tr with
    | nil => exact ⟨rfl, (Option.some.inj h).symm⟩
    | cons e rest => simp [replay] at h
  | abort =>
    cases tr with
    | nil => exact ⟨rfl, (Option.some.inj h).symm⟩
    | cons e rest => simp [replay] at h
  | perform o k ih =>
    cases tr with
    | nil => simp [replay] at h
    | cons e rest =>
      obtain ⟨o', r⟩ := e
      simp only [replay] at h
      split at h
      · next ho =>
        subst ho
        exact ⟨r, rest, rfl, ih _ h⟩
      · cases h

/-- The run in which every operation `o` is answered by `answer o`. -/
def runWith (answer : (o : Op) → Res o) : Prog Op Res α → List (Event Op Res) × Option α
  | .ret a => ([], some a)
  | .abort => ([], none)
  | .perform o k =>
    let (tr, out) := runWith answer (k (answer o))
    (⟨o, answer o⟩ :: tr, out)

theorem exec_runWith (answer : (o : Op) → Res o) (p : Prog Op Res α) :
    Exec p (p.runWith answer).1 (p.runWith answer).2 := by
  induction p with
  | ret a => exact ⟨rfl, rfl⟩
  | abort => exact ⟨rfl, rfl⟩
  | perform o k ih => exact ⟨answer o, _, rfl, ih (answer o)⟩

theorem answer_of_mem_runWith {answer : (o : Op) → Res o} {p : Prog Op Res α} {e : Event Op Res}
    (h : e ∈ (p.runWith answer).1) : e = ⟨e.1, answer e.1⟩ := by
  induction p with
  | ret a => cases h
  | abort => cases h
  | perform o k ih =>
    rcases List.mem_cons.mp h with rfl | h
    · rfl
    · exact ih (answer o) h

end Prog

/-- An environment with states `σ`: how an operation may be answered, and what may
happen between two operations. -/
structure Environment (Op : Type) (Res : Op → Type) (σ : Type) where
  respond : (o : Op) → Res o → σ → σ → Prop
  silent : σ → σ → Prop

/-- The traces an environment goes along with. -/
inductive Environment.Accepts {Op : Type} {Res : Op → Type} {σ : Type}
    (E : Environment Op Res σ) : σ → List (Event Op Res) → σ → Prop where
  | nil {w : σ} : E.Accepts w [] w
  | silent {w w' w'' : σ} {tr : List (Event Op Res)} :
      E.silent w w' → E.Accepts w' tr w'' → E.Accepts w tr w''
  | event {w w' w'' : σ} {o : Op} {r : Res o} {tr : List (Event Op Res)} :
      E.respond o r w w' → E.Accepts w' tr w'' → E.Accepts w (⟨o, r⟩ :: tr) w''

/-- Before the first event of a trace there are only silent steps. -/
theorem Environment.Accepts.cons {Op : Type} {Res : Op → Type} {σ : Type}
    {E : Environment Op Res σ} {w w' : σ} {o : Op} {r : Res o} {tr : List (Event Op Res)}
    (h : E.Accepts w (⟨o, r⟩ :: tr) w') :
    ∃ u v, Relation.ReflTransGen E.silent w u ∧ E.respond o r u v ∧ E.Accepts v tr w' := by
  generalize hl : (⟨o, r⟩ :: tr : List (Event Op Res)) = l at h
  induction h with
  | nil => cases hl
  | silent hs _ ih =>
    obtain ⟨u, v, huv, hr, ha⟩ := ih hl
    exact ⟨u, v, .head hs huv, hr, ha⟩
  | event hr ha =>
    cases hl
    exact ⟨_, _, .refl, hr, ha⟩

theorem Environment.Accepts.of_silent {Op : Type} {Res : Op → Type} {σ : Type}
    {E : Environment Op Res σ} {u w w' : σ} {tr : List (Event Op Res)}
    (hs : Relation.ReflTransGen E.silent u w) (h : E.Accepts w tr w') : E.Accepts u tr w' := by
  induction hs using Relation.ReflTransGen.head_induction_on with
  | refl => exact h
  | head hstep _ ih => exact .silent hstep ih

/-- A trace in two parts is accepted part by part. -/
theorem Environment.Accepts.append {Op : Type} {Res : Op → Type} {σ : Type}
    {E : Environment Op Res σ} {w w' : σ} {tr₁ tr₂ : List (Event Op Res)}
    (h : E.Accepts w (tr₁ ++ tr₂) w') : ∃ u, E.Accepts w tr₁ u ∧ E.Accepts u tr₂ w' := by
  induction tr₁ generalizing w with
  | nil => exact ⟨w, .nil, h⟩
  | cons e tr₁ ih =>
    obtain ⟨u, v, hsilent, hr, hrest⟩ := Environment.Accepts.cons h
    obtain ⟨x, hx, hlast⟩ := ih hrest
    exact ⟨x, .of_silent hsilent (.event hr hx), hlast⟩

/-- Behind the last event of a trace there are only silent steps. -/
theorem Environment.Accepts.ended {Op : Type} {Res : Op → Type} {σ : Type}
    {E : Environment Op Res σ} {w w' : σ} (h : E.Accepts w [] w') :
    Relation.ReflTransGen E.silent w w' := by
  generalize hl : ([] : List (Event Op Res)) = l at h
  induction h with
  | nil => exact .refl
  | silent hs _ ih => exact .head hs (ih hl)
  | event _ _ => cases hl

/-- In an environment without silent steps, one event is one answer. -/
theorem Environment.Accepts.single {Op : Type} {Res : Op → Type} {σ : Type}
    {E : Environment Op Res σ} (hsilent : ∀ w w', ¬ E.silent w w') {w w' : σ} {o : Op} {r : Res o}
    (h : E.Accepts w [⟨o, r⟩] w') : E.respond o r w w' := by
  cases h with
  | silent hs _ => exact absurd hs (hsilent _ _)
  | event hr hrest =>
    cases hrest with
    | nil => exact hr
    | silent hs _ => exact absurd hs (hsilent _ _)

end NetworkFileSystem.Base
