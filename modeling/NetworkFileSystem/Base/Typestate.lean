import NetworkFileSystem.Base.Interleave

/-!
# Programs that follow an automaton

General support. An automaton reads the operations of a program with their outcomes; a
program follows it if it never performs what the automaton does not allow, whatever the
outcomes, and ends in a state that the postcondition allows. Programs that run side by
side carry one state each, and an invariant over these states and the environment
holds in every run if each allowed operation keeps it.
-/

namespace NetworkFileSystem.Base

open Prog

variable {Op : Type} {Res : Op → Type} {α β S : Type}

namespace Prog

/-- From state `s` the program performs only what `next` allows and returns as `post` says. -/
def Follows (next : S → Event Op Res → Option S) (post : α → S → Prop) :
    S → Prog Op Res α → Prop
  | s, .ret a => post a s
  | _, .abort => True
  | s, .perform o k => ∀ r, ∃ s', next s ⟨o, r⟩ = some s' ∧ Follows next post s' (k r)

variable {next : S → Event Op Res → Option S}

theorem follows_bind {mid : α → S → Prop} {post : β → S → Prop} {s : S} {p : Prog Op Res α}
    {f : α → Prog Op Res β} (hp : Follows next mid s p)
    (hf : ∀ a s', mid a s' → Follows next post s' (f a)) : Follows next post s (p >>= f) := by
  change Follows next post s (p.bind f)
  induction p generalizing s with
  | ret a => exact hf a s hp
  | abort => trivial
  | perform o k ih =>
    intro r
    obtain ⟨s', hs', hk⟩ := hp r
    exact ⟨s', hs', ih r hk⟩

theorem Follows.mono {post post' : α → S → Prop} {s : S} {p : Prog Op Res α}
    (h : Follows next post s p) (hpost : ∀ a s, post a s → post' a s) :
    Follows next post' s p := by
  induction p generalizing s with
  | ret a => exact hpost a s h
  | abort => trivial
  | perform o k ih =>
    intro r
    obtain ⟨s', hs', hk⟩ := h r
    exact ⟨s', hs', ih r hk⟩

/-- A single operation. -/
theorem follows_call {post : β → S → Prop} {s : S} {o : Op} {f : Res o → Prog Op Res β}
    (h : ∀ r, ∃ s', next s ⟨o, r⟩ = some s' ∧ Follows next post s' (f r)) :
    Follows next post s (call o >>= f) := h

/-- A single operation after which the state is `s'`, whatever its outcome. -/
theorem follows_step {post : β → S → Prop} {s : S} (s' : S) {o : Op} {f : Res o → Prog Op Res β}
    (hs : ∀ r, next s ⟨o, r⟩ = some s') (h : ∀ r, Follows next post s' (f r)) :
    Follows next post s (call o >>= f) :=
  follows_call (fun r ↦ ⟨s', hs r, h r⟩)

/-- A part of the program that always ends in the state `s'`. -/
theorem follows_seq {post : β → S → Prop} {s s' : S} {p : Prog Op Res α} {f : α → Prog Op Res β}
    (hp : Follows next (fun _ t ↦ t = s') s p) (hf : ∀ a, Follows next post s' (f a)) :
    Follows next post s (p >>= f) := by
  refine follows_bind hp (fun a t ht ↦ ?_)
  subst ht
  exact hf a

/-- A missing value ends the program. -/
theorem follows_ofOption {post : β → S → Prop} {s : S} {x : Option α} {f : α → Prog Op Res β}
    (h : ∀ a, x = some a → Follows next post s (f a)) :
    Follows next post s (ofOption x >>= f) := by
  cases x with
  | none => trivial
  | some a => exact h a rfl

/-- What a program only performs without a change of state leaves the state as it is. -/
theorem Only.follows {P : Op → Prop} {p : Prog Op Res α} (h : p.Only P) {s : S}
    (hs : ∀ o r, P o → next s ⟨o, r⟩ = some s) : Follows next (fun _ s' ↦ s' = s) s p := by
  induction p with
  | ret a => rfl
  | abort => trivial
  | perform o k ih => exact fun r ↦ ⟨s, hs o r h.1, ih r (h.2 r)⟩

/-- An automaton that allows more is followed as well. -/
theorem Follows.of_imp {next' : S → Event Op Res → Option S} {post : α → S → Prop} {s : S}
    {p : Prog Op Res α} (h : Follows next post s p)
    (himp : ∀ s e s', next s e = some s' → next' s e = some s') : Follows next' post s p := by
  induction p generalizing s with
  | ret a => exact h
  | abort => trivial
  | perform o k ih =>
    intro r
    obtain ⟨s', hs', hk⟩ := h r
    exact ⟨s', himp _ _ _ hs', ih r hk⟩

end Prog

/-- An automaton that also notes whether there was an event of `P`. -/
def noting (P : Event Op Res → Bool) (next : S → Event Op Res → Option S) (s : S × Bool)
    (e : Event Op Res) : Option (S × Bool) :=
  (next s.1 e).map (fun s' ↦ (s', s.2 || P e))

section Noting

variable {P : Event Op Res → Bool} {next next' : S → Event Op Res → Option S}

theorem noting_eq_some {s s' : S × Bool} {e : Event Op Res} :
    noting P next s e = some s' ↔ next s.1 e = some s'.1 ∧ s'.2 = (s.2 || P e) := by
  obtain ⟨t, b⟩ := s'
  simp only [noting, Option.map_eq_some_iff, Prod.mk.injEq]
  constructor
  · rintro ⟨_, ht, rfl, rfl⟩
    exact ⟨ht, rfl⟩
  · rintro ⟨ht, rfl⟩
    exact ⟨t, ht, rfl, rfl⟩

theorem noting_mono (h : ∀ s e s', next s e = some s' → next' s e = some s') (s : S × Bool)
    (e : Event Op Res) (s' : S × Bool) (hs : noting P next s e = some s') :
    noting P next' s e = some s' := by
  rw [noting_eq_some] at hs ⊢
  exact ⟨h _ _ _ hs.1, hs.2⟩

/-- What is noted may be forgotten. -/
theorem Prog.Follows.forget {post : α → S × Bool → Prop} {s : S × Bool} {p : Prog Op Res α}
    (h : Follows (noting P next) post s p) : Follows next (fun a s' ↦ ∃ b, post a (s', b)) s.1 p := by
  induction p generalizing s with
  | ret a => exact ⟨s.2, h⟩
  | abort => trivial
  | perform o k ih =>
    intro r
    obtain ⟨s', hs', hk⟩ := h r
    exact ⟨s'.1, (noting_eq_some.mp hs').1, ih r hk⟩

end Noting

/-- The state behind a trace. -/
def stateAfter (next : S → Event Op Res → Option S) : S → List (Event Op Res) → Option S
  | s, [] => some s
  | s, e :: tr => (next s e).bind (fun s' ↦ stateAfter next s' tr)

theorem stateAfter_concat (next : S → Event Op Res → Option S) (s : S) (tr : List (Event Op Res))
    (e : Event Op Res) : stateAfter next s (tr ++ [e]) = (stateAfter next s tr).bind (fun s' ↦ next s' e) := by
  induction tr generalizing s with
  | nil => cases h : next s e <;> simp [stateAfter, h]
  | cons d tr ih => cases h : next s d <;> simp [stateAfter, h, ih]

/-- The invariant rule for programs that follow an automaton side by side. -/
theorem Interleaved.follows {T σ : Type} [DecidableEq T] {E : SharedEnvironment T Op Res σ}
    {ps qs : T → Prog Op Res α} {w v : σ} {log : List (T × Event Op Res)}
    (h : Interleaved E ps w log qs v) {next : S → Event Op Res → Option S}
    {post : α → S → Prop} {s₀ : T → S} {I : (T → S) → σ → Prop}
    (hps : ∀ t, Follows next post (s₀ t) (ps t)) (hinit : I s₀ w)
    (hsilent : ∀ st u v, I st u → E.silent u v → I st v)
    (hstep : ∀ st u v t o r s', I st u → next (st t) ⟨o, r⟩ = some s' → E.respond t o r u v →
      I (Function.update st t s') v) :
    ∃ st : T → S, I st v ∧ ∀ t, Follows next post (st t) (qs t) ∧
      stateAfter next (s₀ t) (own t log) = some (st t) := by
  induction h with
  | start => exact ⟨s₀, hinit, fun t ↦ ⟨hps t, rfl⟩⟩
  | silent _ hs ih =>
    obtain ⟨st, hI, hst⟩ := ih
    exact ⟨st, hsilent st _ _ hI hs, hst⟩
  | @step log qs u v t o k r _ hq hr ih =>
    obtain ⟨st, hI, hst⟩ := ih
    have ht := (hst t).1
    rw [hq] at ht
    obtain ⟨s', hs', hk⟩ := ht r
    refine ⟨Function.update st t s', hstep st u v t o r s' hI hs' hr, fun x ↦ ?_⟩
    by_cases hx : x = t
    · subst hx
      rw [Function.update_self, Function.update_self, own_append, own_singleton, if_pos rfl,
        stateAfter_concat, (hst x).2]
      exact ⟨hk, hs'⟩
    · rw [Function.update_of_ne hx, Function.update_of_ne hx, own_append, own_singleton,
        if_neg (Ne.symm hx), List.append_nil]
      exact hst x

/-- What is noted can be read off the trace. -/
theorem noted_of_stateAfter {P : Event Op Res → Bool} {next : S → Event Op Res → Option S}
    {tr : List (Event Op Res)} {s s' : S × Bool} (h : stateAfter (noting P next) s tr = some s') :
    s'.2 = (s.2 || tr.any P) := by
  induction tr generalizing s with
  | nil =>
    cases h
    simp
  | cons e tr ih =>
    obtain ⟨t, ht, hrest⟩ := Option.bind_eq_some_iff.mp h
    rw [ih hrest, (noting_eq_some.mp ht).2, List.any_cons, Bool.or_assoc]

/-- The invariant rule for programs that follow an automaton side by side and note events. -/
theorem Interleaved.follows_noting {T σ : Type} [DecidableEq T] {E : SharedEnvironment T Op Res σ}
    {ps qs : T → Prog Op Res α} {w v : σ} {log : List (T × Event Op Res)}
    (h : Interleaved E ps w log qs v) {P : Event Op Res → Bool}
    {next : S → Event Op Res → Option S} {post : α → S × Bool → Prop} {s₀ : T → S}
    {I : (T → S) → σ → Prop}
    (hps : ∀ t, Follows (noting P next) post (s₀ t, false) (ps t)) (hinit : I s₀ w)
    (hsilent : ∀ st u v, I st u → E.silent u v → I st v)
    (hstep : ∀ st u v t o r s', I st u → next (st t) ⟨o, r⟩ = some s' → E.respond t o r u v →
      I (Function.update st t s') v) :
    ∃ st : T → S, I st v ∧ ∀ t, Follows (noting P next) post (st t, (own t log).any P) (qs t) := by
  obtain ⟨st, hI, hst⟩ := h.follows (I := fun st u ↦ I (fun t ↦ (st t).1) u) hps hinit
    (fun st u v hI hs ↦ hsilent (fun t ↦ (st t).1) u v hI hs) (fun st u v t o r s' hI hs hr ↦ by
      have hnext := hstep _ u v t o r s'.1 hI (noting_eq_some.mp hs).1 hr
      convert hnext using 1
      funext x
      by_cases hx : x = t
      · subst hx
        simp
      · simp [Function.update_of_ne hx])
  refine ⟨fun t ↦ (st t).1, hI, fun t ↦ ?_⟩
  obtain ⟨hfollows, hstate⟩ := hst t
  rw [← show (st t).2 = (own t log).any P by simpa using noted_of_stateAfter hstate]
  exact hfollows

end NetworkFileSystem.Base
