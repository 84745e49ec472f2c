import NetworkFileSystem.Base.Typestate
import Mathlib.Data.Finset.Basic

/-!
# Names that programs take and give back

General support. Programs that run side by side take names from a common pool, where a name that
was given back may be taken again. A program that uses and gives back only what it has taken never
meets a name that another one has, and if all of them give back everything, the pool is full again.
-/

namespace NetworkFileSystem.Base

open Prog

variable {Op : Type} {Res : Op → Type} {α β T R : Type}

/-- What an event does with a name. -/
inductive Access (R : Type) where
  | none
  | take (x : R)
  | use (x : R)
  | give (x : R)

namespace Access

/-- The name that is used or given back. -/
def name : Access R → Option R
  | .use x | .give x => some x
  | .none | .take _ => Option.none

variable [DecidableEq R]

/-- The names that a program has behind an event. It uses and gives back what it has. -/
def next (access : Event Op Res → Access R) (s : Multiset R) (e : Event Op Res) :
    Option (Multiset R) :=
  match access e with
  | .none => some s
  | .take x => some (x ::ₘ s)
  | .use x => if x ∈ s then some s else Option.none
  | .give x => if x ∈ s then some (s.erase x) else Option.none

/-- The pool: which program has which name. What was given back is nobody's. -/
def respond (access : Event Op Res → Access R) (t : T) (e : Event Op Res) (w w' : R → Option T) :
    Prop :=
  match access e with
  | .none | .use _ => w' = w
  | .take x => w x = Option.none ∧ w' = Function.update w x (some t)
  | .give x => w' = Function.update w x Option.none

/-- The programs share the pool; `allowed` are the outcomes that there may be otherwise. -/
def pool (access : Event Op Res → Access R) (allowed : Event Op Res → Prop) :
    SharedEnvironment T Op Res (R → Option T) where
  respond := fun t o r w w' ↦ allowed ⟨o, r⟩ ∧ respond access t ⟨o, r⟩ w w'
  silent := fun _ _ ↦ False

variable {access : Event Op Res → Access R} {allowed : Event Op Res → Prop}
  {P : Event Op Res → Bool} {s : Multiset R} {b : Bool} {post : β → Multiset R × Bool → Prop}
  {o : Op} {f : Res o → Prog Op Res β}

/-! ### Programs that keep to the rule -/

/-- An operation that is not noted and has nothing to do with names. -/
theorem follows_none (h : ∀ r, access ⟨o, r⟩ = .none) (hP : ∀ r, P ⟨o, r⟩ = false)
    (hf : ∀ r, Follows (noting P (next access)) post (s, b) (f r)) :
    Follows (noting P (next access)) post (s, b) (call o >>= f) :=
  follows_step (s, b) (fun r ↦ by simp [noting, next, h r, hP r]) hf

/-- A name is used. -/
theorem follows_use {x : R} (h : ∀ r, access ⟨o, r⟩ = .use x) (hP : ∀ r, P ⟨o, r⟩ = false)
    (hx : x ∈ s) (hf : ∀ r, Follows (noting P (next access)) post (s, b) (f r)) :
    Follows (noting P (next access)) post (s, b) (call o >>= f) :=
  follows_step (s, b) (fun r ↦ by simp [noting, next, h r, hP r, hx]) hf

/-- The name that was taken last is given back. -/
theorem follows_give {x : R} (h : ∀ r, access ⟨o, r⟩ = .give x) (hP : ∀ r, P ⟨o, r⟩ = false)
    (hf : ∀ r, Follows (noting P (next access)) post (s, b) (f r)) :
    Follows (noting P (next access)) post (x ::ₘ s, b) (call o >>= f) :=
  follows_step (s, b) (fun r ↦ by simp [noting, next, h r, hP r]) hf

/-! ### Runs -/

variable [DecidableEq T]

/-- Every program has exactly the names that the pool has it down for, each of them once. -/
def Agree (st : T → Multiset R) (w : R → Option T) : Prop :=
  ∀ t, (st t).Nodup ∧ ∀ x, x ∈ st t ↔ w x = some t

theorem Agree.step {st : T → Multiset R} {w w' : R → Option T} {t : T} {e : Event Op Res}
    {s' : Multiset R} (h : Agree st w) (hs : next access (st t) e = some s')
    (hr : respond access t e w w') : Agree (Function.update st t s') w' := by
  have hsame : Function.update st t (st t) = st := Function.update_eq_self t st
  unfold next at hs
  unfold respond at hr
  cases he : access e with
  | none =>
    simp only [he] at hs hr
    cases hs
    rw [hr, hsame]
    exact h
  | use x =>
    simp only [he, Option.ite_none_right_eq_some, Option.some.injEq] at hs hr
    rw [hr, ← hs.2, hsame]
    exact h
  | take x =>
    simp only [he] at hs hr
    cases hs
    obtain ⟨hfree, rfl⟩ := hr
    have hnobody : ∀ u, x ∉ st u := by
      intro u hmem
      rw [((h u).2 x).mp hmem] at hfree
      cases hfree
    intro u
    by_cases hu : u = t
    · subst hu
      rw [Function.update_self, Multiset.nodup_cons]
      refine ⟨⟨hnobody u, (h u).1⟩, fun y ↦ ?_⟩
      by_cases hy : y = x
      · simp [hy]
      · rw [Function.update_of_ne hy, Multiset.mem_cons, or_iff_right hy]
        exact (h u).2 y
    · rw [Function.update_of_ne hu]
      refine ⟨(h u).1, fun y ↦ ?_⟩
      by_cases hy : y = x
      · simp [hy, hnobody u, Ne.symm hu]
      · rw [Function.update_of_ne hy]
        exact (h u).2 y
  | give x =>
    simp only [he, Option.ite_none_right_eq_some, Option.some.injEq] at hs hr
    obtain ⟨hx, rfl⟩ := hs
    subst hr
    have howner : w x = some t := ((h t).2 x).mp hx
    intro u
    by_cases hu : u = t
    · subst hu
      rw [Function.update_self]
      refine ⟨(h u).1.erase x, fun y ↦ ?_⟩
      rw [(h u).1.mem_erase_iff]
      by_cases hy : y = x
      · simp [hy]
      · rw [Function.update_of_ne hy, and_iff_right hy]
        exact (h u).2 y
    · rw [Function.update_of_ne hu]
      refine ⟨(h u).1, fun y ↦ ?_⟩
      by_cases hy : y = x
      · have hnot : x ∉ st u := by
          intro hmem
          rw [((h u).2 x).mp hmem] at howner
          exact hu (Option.some.inj howner)
        simp [hy, hnot]
      · rw [Function.update_of_ne hy]
        exact (h u).2 y

/-- Programs that keep to the rule agree with the pool in every interleaving. -/
theorem agree_of_interleaved {ps qs : T → Prog Op Res α} {w : R → Option T}
    {log : List (T × Event Op Res)} {post : α → Multiset R → Prop}
    (h : Interleaved (pool access allowed) ps (fun _ ↦ Option.none) log qs w)
    (hps : ∀ t, Follows (next access) post 0 (ps t)) :
    ∃ st : T → Multiset R, Agree st w ∧ ∀ t, Follows (next access) post (st t) (qs t) := by
  obtain ⟨st, hst, hqs⟩ := h.follows (I := Agree) hps
    (by intro t; simp) (fun _ _ _ _ hs ↦ hs.elim)
    (fun _ _ _ _ _ _ _ hI hs hr ↦ hI.step hs hr.2)
  exact ⟨st, hst, fun t ↦ (hqs t).1⟩

/-- No program uses or gives back what another one has. -/
theorem own_of_interleaved {ps qs : T → Prog Op Res α} {w : R → Option T}
    {log : List (T × Event Op Res)} {post : α → Multiset R → Prop}
    (h : Interleaved (pool access allowed) ps (fun _ ↦ Option.none) log qs w)
    (hps : ∀ t, Follows (next access) post 0 (ps t)) {t : T} {o : Op} {k : Res o → Prog Op Res α}
    (hq : qs t = .perform o k) {r : Res o} {x : R} (hx : (access ⟨o, r⟩).name = some x) :
    w x = some t := by
  obtain ⟨st, hst, hqs⟩ := agree_of_interleaved h hps
  have ht := hqs t
  rw [hq] at ht
  obtain ⟨s', hs', -⟩ := ht r
  rw [← (hst t).2 x]
  unfold next at hs'
  cases he : access ⟨o, r⟩ with
  | none | take =>
    rw [he] at hx
    cases hx
  | use y | give y =>
    rw [he] at hx
    cases hx
    simp only [he, Option.ite_none_right_eq_some] at hs'
    exact hs'.1

/-! ### What is still owed -/

/-- The names that a program has yet to give back, whether or not others give them back too. -/
def owes (access : Event Op Res → Access R) (s : Multiset R) (e : Event Op Res) :
    Option (Multiset R) :=
  match access e with
  | .none | .use _ => some s
  | .take x => some (x ::ₘ s)
  | .give x => some (s.erase x)

/-- A program that gives back what it has owes what it has. -/
theorem owes_of_next {s' : Multiset R} {e : Event Op Res} (h : next access s e = some s') :
    owes access s e = some s' := by
  unfold next at h
  unfold owes
  cases he : access e with
  | none | take x => rwa [he] at h
  | use x | give x =>
    simp only [he, Option.ite_none_right_eq_some] at h
    exact h.2

/-- Every program owes at least the names that the pool has it down for. -/
def Owed (st : T → Multiset R) (w : R → Option T) : Prop := ∀ t x, w x = some t → x ∈ st t

theorem Owed.step {st : T → Multiset R} {w w' : R → Option T} {t : T} {e : Event Op Res}
    {s' : Multiset R} (h : Owed st w) (hs : owes access (st t) e = some s')
    (hr : respond access t e w w') : Owed (Function.update st t s') w' := by
  intro u y hy
  unfold owes at hs
  unfold respond at hr
  cases he : access e with
  | none | use x =>
    simp only [he, Option.some.injEq] at hs hr
    rw [hr] at hy
    rw [← hs, Function.update_eq_self]
    exact h u y hy
  | take x =>
    simp only [he, Option.some.injEq] at hs hr
    rw [hr.2] at hy
    rw [← hs]
    by_cases hu : u = t
    · subst hu
      rw [Function.update_self, Multiset.mem_cons]
      by_cases hyx : y = x
      · exact .inl hyx
      · rw [Function.update_of_ne hyx] at hy
        exact .inr (h u y hy)
    · rw [Function.update_of_ne hu]
      have hyx : y ≠ x := by
        rintro rfl
        rw [Function.update_self, Option.some.injEq] at hy
        exact hu hy.symm
      rw [Function.update_of_ne hyx] at hy
      exact h u y hy
  | give x =>
    simp only [he, Option.some.injEq] at hs hr
    have hyx : y ≠ x := by
      rintro rfl
      rw [hr, Function.update_self] at hy
      cases hy
    rw [hr, Function.update_of_ne hyx] at hy
    rw [← hs]
    by_cases hu : u = t
    · subst hu
      rw [Function.update_self, Multiset.mem_erase_of_ne hyx]
      exact h u y hy
    · rw [Function.update_of_ne hu]
      exact h u y hy

/-- A program that has come back owes nothing unless something has been noted, so without that it
has nothing, whatever the others do. -/
theorem noted_of_held {ps qs : T → Prog Op Res α} {w : R → Option T}
    {log : List (T × Event Op Res)}
    (h : Interleaved (pool access allowed) ps (fun _ ↦ Option.none) log qs w)
    (hps : ∀ t, Follows (noting P (owes access)) (fun _ s ↦ s.2 = false → s.1 = 0) (0, false) (ps t))
    {t : T} {a : α} (hq : qs t = .ret a) {x : R} (hx : w x = some t) : (own t log).any P = true := by
  obtain ⟨st, hst, hqs⟩ := h.follows_noting (I := Owed) hps
    (fun _ _ hx ↦ nomatch hx) (fun _ _ _ _ hs ↦ hs.elim)
    (fun _ _ _ _ _ _ _ hI hs hr ↦ hI.step hs hr.2)
  by_contra hnot
  have hempty := hqs t
  rw [hq] at hempty
  have hmem := hst t x hx
  rw [show st t = 0 from hempty (Bool.eq_false_iff.mpr hnot)] at hmem
  exact Multiset.notMem_zero x hmem

/-- A program that keeps something if something has been noted has it, whatever the others do, if
they keep to the rule. -/
theorem held_of_noted {ps qs : T → Prog Op Res α} {w : R → Option T}
    {log : List (T × Event Op Res)}
    (h : Interleaved (pool access allowed) ps (fun _ ↦ Option.none) log qs w)
    (hps : ∀ t, Follows (noting P (next access)) (fun _ s ↦ s.2 = true → s.1 ≠ 0) (0, false) (ps t))
    {t : T} {a : α} (hq : qs t = .ret a) (hnoted : (own t log).any P = true) :
    ∃ x, w x = some t := by
  obtain ⟨st, hst, hqs⟩ := h.follows_noting (I := Agree) hps
    (by intro t; simp) (fun _ _ _ _ hs ↦ hs.elim)
    (fun _ _ _ _ _ _ _ hI hs hr ↦ hI.step hs hr.2)
  have hkept := hqs t
  rw [hq] at hkept
  obtain ⟨x, hx⟩ := Multiset.exists_mem_of_ne_zero (hkept hnoted)
  exact ⟨x, ((hst t).2 x).mp hx⟩

end Access

end NetworkFileSystem.Base
