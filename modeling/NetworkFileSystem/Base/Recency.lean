import Mathlib.Data.List.DropRight
import Mathlib.Data.List.Nodup

/-!
# Queues in order of last use

General support. A bounded queue of entries with keys: using an entry puts it at the back,
where no other entry has its key, and what exceeds the bound leaves at the front; a key can
be dropped. Without drops the queue is the end of the list of last uses; with drops it is
a sublist of it.
-/

namespace NetworkFileSystem.Base.Recency

variable {α κ : Type} [DecidableEq κ]

/-- What happens to a queue. -/
inductive Call (α κ : Type) where
  | use (e : α)
  | drop (k : κ)

/-- The entries with other keys than `k`. -/
def without (key : α → κ) (k : κ) (q : List α) : List α := q.filter (fun e ↦ key e ≠ k)

/-- The queue behind the use of `e`. -/
def use (key : α → κ) (cap : Nat) (q : List α) (e : α) : List α :=
  (without key (key e) q ++ [e]).rtake cap

/-- The queue behind a call. -/
def after (key : α → κ) (cap : Nat) (q : List α) : Call α κ → List α
  | .use e => use key cap q e
  | .drop k => without key k q

/-- The queue behind calls on an empty one. -/
def held (key : α → κ) (cap : Nat) (calls : List (Call α κ)) : List α :=
  calls.foldl (after key cap) []

/-- The entries that calls have used, in order. -/
def uses (calls : List (Call α κ)) : List α :=
  calls.filterMap (fun
    | .use e => some e
    | .drop _ => none)

/-- The uses that no later use of their key follows, in order. -/
def lastUses (key : α → κ) : List α → List α
  | [] => []
  | e :: es => if key e ∈ es.map key then lastUses key es else e :: lastUses key es

variable {key : α → κ} {cap : Nat}

/-! ### Dropping a key -/

theorem mem_without {k : κ} {q : List α} {e : α} : e ∈ without key k q ↔ e ∈ q ∧ key e ≠ k := by
  simp [without]

theorem without_sublist (k : κ) (q : List α) : (without key k q).Sublist q :=
  List.filter_sublist

theorem without_append (k : κ) (p q : List α) :
    without key k (p ++ q) = without key k p ++ without key k q :=
  List.filter_append _ _

/-- A key that is not there cannot be dropped. -/
theorem without_of_notMem {k : κ} {q : List α} (h : k ∉ q.map key) : without key k q = q := by
  apply List.filter_eq_self.mpr
  intro e he
  simp only [ne_eq, decide_not, Bool.not_eq_true', decide_eq_false_iff_not]
  rintro rfl
  exact h (List.mem_map_of_mem he)

/-- With distinct keys, dropping the key of an entry leaves all other entries. -/
theorem without_eq_eraseIdx {q : List α} (hnodup : (q.map key).Nodup) {i : Nat} {e : α}
    (hi : q[i]? = some e) : without key (key e) q = q.eraseIdx i := by
  induction q generalizing i with
  | nil => cases hi
  | cons a q ih =>
    rw [List.map_cons, List.nodup_cons] at hnodup
    cases i with
    | zero =>
      cases hi
      rw [List.eraseIdx_cons_zero, without, List.filter_cons_of_neg (by simp)]
      exact without_of_notMem hnodup.1
    | succ i =>
      rw [List.getElem?_cons_succ] at hi
      have hne : key a ≠ key e := by
        intro h
        exact hnodup.1 (h ▸ List.mem_map_of_mem (List.mem_of_getElem? hi))
      rw [List.eraseIdx_cons_succ, without, List.filter_cons_of_pos (by simpa using hne)]
      exact congrArg _ (ih hnodup.2 hi)

/-- With distinct keys, dropping one loses at most one entry. -/
theorem length_without {q : List α} (hnodup : (q.map key).Nodup) (k : κ) :
    q.length ≤ (without key k q).length + 1 := by
  by_cases hk : k ∈ q.map key
  · obtain ⟨e, he, rfl⟩ := List.mem_map.mp hk
    obtain ⟨i, hi⟩ := List.getElem?_of_mem he
    rw [without_eq_eraseIdx hnodup hi, List.length_eraseIdx]
    split <;> omega
  · rw [without_of_notMem hk]
    omega

/-! ### The end of a list -/

private theorem rtake_append {p q : List α} (h : cap ≤ q.length) :
    (p ++ q).rtake cap = q.rtake cap := by
  have hn : (p ++ q).length - cap = p.length + (q.length - cap) := by
    rw [List.length_append]
    omega
  rw [List.rtake, hn, List.drop_length_add_append, List.rtake]

theorem rtake_of_length_le {q : List α} (h : q.length ≤ cap) : q.rtake cap = q := by
  rw [List.rtake, Nat.sub_eq_zero_of_le h, List.drop_zero]

theorem length_rtake_le (q : List α) : (q.rtake cap).length ≤ cap := by
  rw [List.rtake, List.length_drop]
  omega

theorem rtake_suffix (q : List α) : q.rtake cap <:+ q := List.drop_suffix _ _

/-- A use gives the same on a list with distinct keys and on its end. -/
theorem use_rtake {q : List α} (hnodup : (q.map key).Nodup) (e : α) :
    use key cap (q.rtake cap) e = use key cap q e := by
  by_cases hle : q.length ≤ cap
  · rw [rtake_of_length_le hle]
  · obtain ⟨p, hp⟩ : q.rtake cap <:+ q := rtake_suffix q
    have hlen : (q.rtake cap).length = cap := by
      rw [List.rtake, List.length_drop]
      omega
    have hend : ((q.rtake cap).map key).Nodup :=
      hnodup.sublist ((rtake_suffix q).sublist.map key)
    have hkept := length_without hend (key e)
    have hq : without key (key e) q = without key (key e) p ++ without key (key e) (q.rtake cap) := by
      rw [← without_append, hp]
    have hroom : cap ≤ (without key (key e) (q.rtake cap) ++ [e]).length := by
      rw [List.length_append, List.length_singleton]
      omega
    rw [use, use, hq, List.append_assoc, rtake_append hroom]

/-! ### Last uses -/

/-- A use comes last and takes the place of the last use of its key. -/
theorem lastUses_concat (es : List α) (e : α) :
    lastUses key (es ++ [e]) = without key (key e) (lastUses key es) ++ [e] := by
  induction es with
  | nil => simp [lastUses, without]
  | cons a es ih =>
    simp only [List.cons_append, lastUses, ih, List.map_append, List.mem_append, List.map_cons,
      List.map_nil, List.mem_singleton]
    by_cases ha : key a ∈ es.map key
    · rw [if_pos (.inl ha), if_pos ha]
    · rw [if_neg ha]
      by_cases hk : key a = key e
      · rw [if_pos (.inr hk), without, without, List.filter_cons_of_neg (by simp [hk])]
      · rw [if_neg (by simp [ha, hk]), without, without, List.filter_cons_of_pos (by simp [hk])]
        rfl

theorem lastUses_sublist (es : List α) : (lastUses key es).Sublist es := by
  induction es with
  | nil => exact .slnil
  | cons e es ih =>
    unfold lastUses
    split
    · exact ih.cons e
    · exact ih.cons_cons e

theorem nodup_lastUses (es : List α) : ((lastUses key es).map key).Nodup := by
  induction es with
  | nil => exact .nil
  | cons e es ih =>
    unfold lastUses
    split
    · exact ih
    · next h =>
      rw [List.map_cons, List.nodup_cons]
      exact ⟨fun hm ↦ h (((lastUses_sublist es).map key).subset hm), ih⟩

/-! ### Queues -/

theorem held_concat (calls : List (Call α κ)) (c : Call α κ) :
    held key cap (calls ++ [c]) = after key cap (held key cap calls) c := by
  simp [held]

omit [DecidableEq κ] in
theorem uses_concat_use (calls : List (Call α κ)) (e : α) :
    uses (calls ++ [.use e]) = uses calls ++ [e] := by
  simp [uses]

omit [DecidableEq κ] in
theorem uses_concat_drop (calls : List (Call α κ)) (k : κ) :
    uses (calls ++ [.drop k]) = uses calls := by
  simp [uses]

theorem length_held_le (calls : List (Call α κ)) : (held key cap calls).length ≤ cap := by
  induction calls using List.reverseRecOn with
  | nil => exact Nat.zero_le cap
  | append_singleton calls c ih =>
    rw [held_concat]
    cases c with
    | use e => exact length_rtake_le _
    | drop k => exact (without_sublist k _).length_le.trans ih

/-- The queue holds last uses, in their order. -/
theorem held_sublist (calls : List (Call α κ)) :
    (held key cap calls).Sublist (lastUses key (uses calls)) := by
  induction calls using List.reverseRecOn with
  | nil => exact .slnil
  | append_singleton calls c ih =>
    rw [held_concat]
    cases c with
    | use e =>
      rw [uses_concat_use, lastUses_concat]
      exact (rtake_suffix _).sublist.trans ((ih.filter _).append (.refl [e]))
    | drop k =>
      rw [uses_concat_drop]
      exact (without_sublist k _).trans ih

theorem nodup_held (calls : List (Call α κ)) : ((held key cap calls).map key).Nodup :=
  (nodup_lastUses _).sublist ((held_sublist calls).map key)

/-- Without drops the queue holds the last uses of the keys used most recently. -/
theorem held_of_uses {calls : List (Call α κ)} (h : ∀ k, .drop k ∉ calls) :
    held key cap calls = (lastUses key (uses calls)).rtake cap := by
  induction calls using List.reverseRecOn with
  | nil => simp [held, uses, lastUses]
  | append_singleton calls c ih =>
    have hcalls := ih (fun k hk ↦ h k (List.mem_append_left _ hk))
    rw [held_concat]
    cases c with
    | use e =>
      rw [uses_concat_use, lastUses_concat, after, hcalls, use_rtake (nodup_lastUses _)]
      rfl
    | drop k => exact absurd (by simp) (h k)

/-- A dropped key stays away until an entry with this key is used. -/
theorem notMem_held {calls later : List (Call α κ)} {k : κ}
    (h : ∀ e, .use e ∈ later → key e ≠ k) :
    k ∉ (held key cap (calls ++ .drop k :: later)).map key := by
  induction later using List.reverseRecOn with
  | nil =>
    rw [held_concat]
    simp [after, mem_without]
  | append_singleton later c ih =>
    have hlater := ih (fun e he ↦ h e (List.mem_append_left _ he))
    rw [← List.cons_append, ← List.append_assoc, held_concat]
    cases c with
    | use e =>
      have he : key e ≠ k := h e (by simp)
      intro hm
      have hm' := ((rtake_suffix _).sublist.map key).subset hm
      rw [List.map_append, List.mem_append, List.map_singleton, List.mem_singleton] at hm'
      obtain hm' | hm' := hm'
      · exact hlater (((without_sublist _ _).map key).subset hm')
      · exact he hm'.symm
    | drop k' => exact fun hm ↦ hlater (((without_sublist _ _).map key).subset hm)

end NetworkFileSystem.Base.Recency
