import Mathlib.Data.Set.Card

/-!
# Bounded prefix-closed sets of words

General support. A set of words over any alphabet, grown by inserting the prefixes
of a word one after the other and shrunk by dropping a word with all its
extensions. An insertion stops at the first prefix that would give its parent more
than `cap` one-letter extensions. `after a S` is the set that is left of `S` behind
the first letter `a`; the operations are computed letter by letter through it.
-/

namespace NetworkFileSystem.Base.PrefixSet

universe u

variable {α : Type u}

/-- The one-letter extensions of `q` in `S`. -/
def children (S : Set (List α)) (q : List α) : Set α := {a | q ++ [a] ∈ S}

/-- What follows the first letter `a` in the words of `S`. -/
def after (a : α) (S : Set (List α)) : Set (List α) := {t | a :: t ∈ S}

open Classical in
/-- Insert the prefixes of `q ++ w` longer than `q`, in order, under the bound. -/
noncomputable def insertFrom (cap : Nat) (S : Set (List α)) (q : List α) :
    List α → Set (List α)
  | [] => S
  | a :: w =>
    if q ++ [a] ∈ S then insertFrom cap S (q ++ [a]) w
    else if cap ≤ (children S q).ncard then S
    else insertFrom cap (insert (q ++ [a]) S) (q ++ [a]) w

/-- Insert all prefixes of `p`, in order, under the bound. -/
noncomputable def insertPath (cap : Nat) (S : Set (List α)) (p : List α) : Set (List α) :=
  insertFrom cap S [] p

open Classical in
/-- Drop `p` and all its extensions if `p` is there. -/
noncomputable def deletePath (S : Set (List α)) (p : List α) : Set (List α) :=
  if p ∈ S then {q | q ∈ S ∧ ¬ p <+: q} else S

/-- The words that no letter extends within `S`. -/
def leaves (S : Set (List α)) : Set (List α) := {p | p ∈ S ∧ ∀ a, p ++ [a] ∉ S}

/-- The words that some letter extends within `S`. -/
def branching (S : Set (List α)) : Set (List α) := {p | p ∈ S ∧ ∃ a, p ++ [a] ∈ S}

/-- Another word of `S` differs from `p` in the last letter only. -/
def HasSibling (S : Set (List α)) (p : List α) : Prop :=
  ∃ a, p.dropLast ++ [a] ∈ S ∧ p.dropLast ++ [a] ≠ p

/-- Every prefix of a member is a member. -/
def PrefixClosed (S : Set (List α)) : Prop := ∀ p q, p <+: q → q ∈ S → p ∈ S

/-- The empty word stays out or in. -/
theorem nil_mem_insertFrom (cap : Nat) (S : Set (List α)) (q w : List α) :
    [] ∈ insertFrom cap S q w ↔ [] ∈ S := by
  induction w generalizing S q with
  | nil => rfl
  | cons a w ih =>
    simp only [insertFrom]
    split_ifs
    · exact ih S _
    · rfl
    · rw [ih]
      simp

private theorem after_insert (a : α) (S : Set (List α)) (q : List α) :
    after a (insert (a :: q) S) = insert q (after a S) := by
  ext t
  simp [after]

/-- Below its first letter, insertion works on the words behind that letter only. -/
theorem cons_mem_insertFrom [DecidableEq α] (cap : Nat) (S : Set (List α)) (a b : α)
    (q w t : List α) :
    b :: t ∈ insertFrom cap S (a :: q) w ↔
      if b = a then t ∈ insertFrom cap (after a S) q w else b :: t ∈ S := by
  induction w generalizing S q with
  | nil => split_ifs with h <;> simp [insertFrom, after, h]
  | cons c w ih =>
    have hmem : (a :: q) ++ [c] ∈ S ↔ q ++ [c] ∈ after a S := Iff.rfl
    have hcard : (children S (a :: q)).ncard = (children (after a S) q).ncard := rfl
    simp only [insertFrom]
    by_cases hin : q ++ [c] ∈ after a S
    · rw [if_pos (hmem.mpr hin), if_pos hin]
      exact ih S (q ++ [c])
    · rw [if_neg (fun h ↦ hin (hmem.mp h)), if_neg hin, hcard]
      by_cases hfull : cap ≤ (children (after a S) q).ncard
      · rw [if_pos hfull, if_pos hfull]
        split_ifs with h <;> simp [after, h]
      · rw [if_neg hfull, if_neg hfull]
        have hstep := ih (insert (a :: (q ++ [c])) S) (q ++ [c])
        rw [after_insert] at hstep
        refine hstep.trans ?_
        split_ifs with h
        · rfl
        · simp [h]

/-- Insertion neither adds nor drops the empty word. -/
theorem nil_mem_insertPath (cap : Nat) (S : Set (List α)) (p : List α) :
    [] ∈ insertPath cap S p ↔ [] ∈ S :=
  nil_mem_insertFrom cap S [] p

/-- An insertion follows a first letter that is already there. -/
theorem cons_mem_insertPath_of_mem [DecidableEq α] {cap : Nat} {S : Set (List α)} {a : α}
    (h : [a] ∈ S) (b : α) (w t : List α) :
    b :: t ∈ insertPath cap S (a :: w) ↔
      if b = a then t ∈ insertPath cap (after a S) w else b :: t ∈ S := by
  simp only [insertPath, insertFrom, List.nil_append, if_pos h]
  exact cons_mem_insertFrom cap S a b [] w t

/-- A full root refuses a new first letter, and with it the whole word. -/
theorem insertPath_of_full {cap : Nat} {S : Set (List α)} {a : α} (h : [a] ∉ S)
    (hfull : cap ≤ (children S []).ncard) (w : List α) : insertPath cap S (a :: w) = S := by
  simp [insertPath, insertFrom, h, hfull]

/-- A new first letter starts a branch that held no word before. -/
theorem cons_mem_insertPath_of_new [DecidableEq α] {cap : Nat} {S : Set (List α)} {a : α}
    (h : [a] ∉ S) (hroom : (children S []).ncard < cap) (b : α) (w t : List α) :
    b :: t ∈ insertPath cap S (a :: w) ↔
      if b = a then t ∈ insertPath cap (insert [] (after a S)) w else b :: t ∈ S := by
  simp only [insertPath, insertFrom, List.nil_append, if_neg h, if_neg (Nat.not_le.mpr hroom)]
  rw [cons_mem_insertFrom, after_insert]
  split_ifs with hb
  · rfl
  · simp [hb]

/-- Deleting a non-empty word keeps the empty one. -/
theorem nil_mem_deletePath_cons (S : Set (List α)) (a : α) (w : List α) :
    [] ∈ deletePath S (a :: w) ↔ [] ∈ S := by
  unfold deletePath
  split_ifs <;> simp

/-- Deletion below a first letter works on the words behind that letter only. -/
theorem cons_mem_deletePath_cons [DecidableEq α] (S : Set (List α)) (a b : α) (w t : List α) :
    b :: t ∈ deletePath S (a :: w) ↔
      if b = a then t ∈ deletePath (after a S) w else b :: t ∈ S := by
  have hmem : a :: w ∈ S ↔ w ∈ after a S := Iff.rfl
  simp only [deletePath]
  by_cases hin : w ∈ after a S
  · rw [if_pos (hmem.mpr hin), if_pos hin]
    split_ifs with h
    · subst h
      simp [after]
    · simp [Ne.symm h]
  · rw [if_neg (fun h ↦ hin (hmem.mp h)), if_neg hin]
    split_ifs with h
    · simp [after, h]
    · rfl

private theorem insertFrom_of_mem {cap : Nat} {S : Set (List α)} (hS : PrefixClosed S)
    (q w : List α) (h : q ++ w ∈ S) : insertFrom cap S q w = S := by
  induction w generalizing q with
  | nil => rfl
  | cons a w ih =>
    have hw : (q ++ [a]) ++ w ∈ S := by simpa using h
    rw [insertFrom, if_pos (hS _ _ ⟨w, rfl⟩ hw)]
    exact ih _ hw

/-- Inserting a member changes nothing. -/
theorem insertPath_of_mem {cap : Nat} {S : Set (List α)} (hS : PrefixClosed S) {p : List α}
    (h : p ∈ S) : insertPath cap S p = S :=
  insertFrom_of_mem hS [] p h

private theorem insertFrom_snoc {cap : Nat} {S : Set (List α)} (hS : PrefixClosed S)
    (q w : List α) (a : α) (h : q ++ w ∈ S) (hnew : q ++ w ++ [a] ∉ S)
    (hroom : (children S (q ++ w)).ncard < cap) :
    insertFrom cap S q (w ++ [a]) = insert (q ++ w ++ [a]) S := by
  induction w generalizing q with
  | nil =>
    simp only [List.append_nil] at hnew hroom
    simp [insertFrom, hnew, Nat.not_le.mpr hroom]
  | cons b w ih =>
    have hw : (q ++ [b]) ++ w ∈ S := by simpa using h
    rw [List.cons_append, insertFrom, if_pos (hS _ _ ⟨w, rfl⟩ hw)]
    have hrest := ih (q ++ [b]) hw (by simpa using hnew) (by simpa using hroom)
    simpa using hrest

/-- Inserting a new one-letter extension of a member with room adds that word only. -/
theorem insertPath_snoc {cap : Nat} {S : Set (List α)} (hS : PrefixClosed S) {p : List α} {a : α}
    (h : p ∈ S) (hnew : p ++ [a] ∉ S) (hroom : (children S p).ncard < cap) :
    insertPath cap S (p ++ [a]) = insert (p ++ [a]) S :=
  insertFrom_snoc hS [] p a h hnew hroom

private theorem insertFrom_of_bounded {cap : Nat} {S T : Set (List α)} {q w : List α}
    (hST : S ⊆ T) (hT : ∀ v, v <+: w → v ≠ [] → q ++ v ∈ T)
    (hcap : ∀ p, (children T p).encard ≤ cap) :
    insertFrom cap S q w = S ∪ {x | ∃ v, v <+: w ∧ v ≠ [] ∧ x = q ++ v} := by
  induction w generalizing S q with
  | nil =>
    ext x
    simp only [insertFrom, Set.mem_union, Set.mem_ofPred_eq, List.prefix_nil]
    constructor
    · exact .inl
    · rintro (h | ⟨v, rfl, hne, -⟩)
      · exact h
      · exact absurd rfl hne
  | cons a w ih =>
    have ha : q ++ [a] ∈ T := hT [a] ⟨w, rfl⟩ (by simp)
    have hrest : ∀ v, v <+: w → v ≠ [] → q ++ [a] ++ v ∈ T := by
      intro v hv _
      rw [List.append_assoc]
      exact hT (a :: v) (List.cons_prefix_cons.mpr ⟨rfl, hv⟩) (by simp)
    -- The prefixes of `a :: w` are `[a]` and those that go on behind it.
    have hsplit : {x | ∃ v, v <+: a :: w ∧ v ≠ [] ∧ x = q ++ v} =
        insert (q ++ [a]) {x | ∃ v, v <+: w ∧ v ≠ [] ∧ x = q ++ [a] ++ v} := by
      ext x
      constructor
      · rintro ⟨v, hv, hne, rfl⟩
        obtain ⟨b, v, rfl⟩ := List.exists_cons_of_ne_nil hne
        obtain ⟨rfl, hvw⟩ := List.cons_prefix_cons.mp hv
        by_cases hnil : v = []
        · subst hnil
          exact .inl rfl
        · exact .inr ⟨v, hvw, hnil, by simp⟩
      · rintro (rfl | ⟨v, hv, -, rfl⟩)
        · exact ⟨[a], ⟨w, rfl⟩, by simp, rfl⟩
        · exact ⟨a :: v, List.cons_prefix_cons.mpr ⟨rfl, hv⟩, by simp, by simp⟩
    rw [hsplit, insertFrom]
    split_ifs with hin hfull
    · rw [ih hST hrest, Set.union_insert, Set.insert_eq_of_mem (Set.mem_union_left _ hin)]
    · -- A full word would be one too many with the new extension.
      exfalso
      have hfin : (children T q).Finite := Set.finite_of_encard_le_coe (hcap q)
      have hsub : children S q ⊂ children T q :=
        ⟨fun b hb ↦ hST hb, fun hle ↦ hin (hle ha)⟩
      have hlt := Set.ncard_lt_ncard hsub hfin
      have hle : (children T q).ncard ≤ cap := by
        have hc := hcap q
        rw [← hfin.cast_ncard_eq] at hc
        exact_mod_cast hc
      omega
    · rw [ih (Set.insert_subset ha hST) hrest, Set.insert_union, Set.union_insert]

/-- Where there is room for all its prefixes, a word is inserted with all of them. -/
theorem insertPath_of_bounded {cap : Nat} {S T : Set (List α)} {p : List α} (hST : S ⊆ T)
    (hT : ∀ v, v <+: p → v ≠ [] → v ∈ T) (hcap : ∀ q, (children T q).encard ≤ cap) :
    insertPath cap S p = S ∪ {x | x <+: p ∧ x ≠ []} := by
  rw [insertPath, insertFrom_of_bounded hST hT hcap]
  congr 1
  ext x
  constructor
  · rintro ⟨v, hv, hne, rfl⟩
    exact ⟨hv, hne⟩
  · rintro ⟨hx, hne⟩
    exact ⟨x, hx, hne, rfl⟩

private theorem mem_insertFrom {cap : Nat} {S : Set (List α)} {q w x : List α}
    (h : x ∈ insertFrom cap S q w) : x ∈ S ∨ x <+: q ++ w := by
  induction w generalizing S q with
  | nil => exact .inl h
  | cons a w ih =>
    rw [insertFrom] at h
    have happ : q ++ a :: w = q ++ [a] ++ w := by simp
    split_ifs at h
    · rw [happ]
      exact ih h
    · exact .inl h
    · obtain h | h := ih h
      · obtain rfl | h := Set.mem_insert_iff.mp h
        · exact .inr (by rw [happ]; exact List.prefix_append _ _)
        · exact .inl h
      · exact .inr (by rw [happ]; exact h)

/-- An insertion adds prefixes of the inserted word only. -/
theorem mem_insertPath {cap : Nat} {S : Set (List α)} {p x : List α}
    (h : x ∈ insertPath cap S p) : x ∈ S ∨ x <+: p :=
  mem_insertFrom h

/-- A deletion adds nothing. -/
theorem mem_deletePath {S : Set (List α)} {p x : List α} (h : x ∈ deletePath S p) : x ∈ S := by
  unfold deletePath at h
  split_ifs at h
  · exact h.1
  · exact h

/-- A new one-letter extension that is deleted again leaves the set as it was. -/
theorem deletePath_insertPath_snoc {cap : Nat} {S : Set (List α)} (hS : PrefixClosed S)
    {p : List α} {a : α} (h : p ∈ S) (hnew : p ++ [a] ∉ S) (hroom : (children S p).ncard < cap) :
    deletePath (insertPath cap S (p ++ [a])) (p ++ [a]) = S := by
  rw [insertPath_snoc hS h hnew hroom, deletePath, if_pos (Set.mem_insert _ _)]
  ext x
  constructor
  · rintro ⟨hx, hpre⟩
    obtain rfl | hx := Set.mem_insert_iff.mp hx
    · exact absurd List.prefix_rfl hpre
    · exact hx
  · intro hx
    exact ⟨Set.mem_insert_of_mem _ hx, fun hpre ↦ hnew (hS _ _ hpre hx)⟩

theorem children_eq_empty {S : Set (List α)} {p : List α} (h : p ∈ leaves S) :
    children S p = ∅ :=
  Set.eq_empty_of_forall_notMem h.2

/-- Below its first letter, a word of two letters and more has the siblings that it has there. -/
theorem hasSibling_cons_cons {S : Set (List α)} {a b : α} {w : List α} :
    HasSibling S (a :: b :: w) ↔ HasSibling (after a S) (b :: w) := by
  simp only [HasSibling, List.dropLast_cons_cons, List.cons_append, after, Set.mem_ofPred_eq]
  refine exists_congr (fun v ↦ and_congr_right (fun _ ↦ not_congr ?_))
  rw [List.cons.injEq, and_iff_right rfl]

end NetworkFileSystem.Base.PrefixSet
