import Mathlib.Data.List.Basic

/-!
# Arrays of pointers

General support. A C array `T *a[n]` is a vector of `n` slots; an empty slot is a `NULL`. A store
behind the last slot is undefined. `fill` is the loop that stores its values one after the other.
-/

namespace NetworkFileSystem.Base

/-- `T *a[n]`. -/
abbrev Slots (n : Nat) (α : Type) : Type := Vector (Option α) n

namespace Slots

variable {α : Type} {n : Nat}

/-- `a[i] = x`. -/
def put (a : Slots n α) (i : Nat) (x : Option α) : Option (Slots n α) :=
  if h : i < n then some (a.set i x h) else none

/-- `a[i++] = x` for every `x`, with the index that is reached. -/
def fill (a : Slots n α) (i : Nat) : List α → Option (Slots n α × Nat)
  | [] => some (a, i)
  | x :: xs => do
    let a ← put a i (some x)
    fill a (i + 1) xs

/-- The values and a `NULL` behind them. -/
def fillNull (a : Slots n α) (xs : List α) : Option (Slots n α) := do
  let (a, i) ← fill a 0 xs
  put a i none

/-- What stands in front of the first `NULL`. -/
def upToNull (a : Slots n α) : List α := (a.toList.takeWhile Option.isSome).reduceOption

theorem toList_put {a b : Slots n α} {i : Nat} {x : Option α} (h : put a i x = some b) :
    i < n ∧ b.toList = a.toList.take i ++ x :: a.toList.drop (i + 1) := by
  unfold put at h
  split at h
  · next hi =>
    cases h
    refine ⟨hi, ?_⟩
    rw [Vector.toList_set, List.set_eq_take_append_cons_drop, if_pos (by simpa using hi)]
  · cases h

/-- The loop stays inside the array if and only if its values fit behind the index. -/
theorem isSome_fill {a : Slots n α} {i : Nat} {xs : List α} (hi : i ≤ n) :
    (fill a i xs).isSome ↔ i + xs.length ≤ n := by
  induction xs generalizing a i with
  | nil => simpa [fill] using hi
  | cons x xs ih =>
    by_cases hlt : i < n
    · have hrest : (fill a i (x :: xs)) = fill (a.set i (some x) hlt) (i + 1) xs := by
        simp [fill, put, hlt]
      rw [hrest, ih hlt, List.length_cons]
      omega
    · simp [fill, put, hlt]
      omega

/-- The values stand behind one another. -/
theorem toList_fill {a b : Slots n α} {i k : Nat} {xs : List α} (h : fill a i xs = some (b, k)) :
    k = i + xs.length ∧
      b.toList = a.toList.take i ++ xs.map some ++ a.toList.drop (i + xs.length) := by
  induction xs generalizing a i with
  | nil =>
    cases h
    simp
  | cons x xs ih =>
    obtain ⟨c, hc, h⟩ := Option.bind_eq_some_iff.mp h
    obtain ⟨hi, hput⟩ := toList_put hc
    obtain ⟨rfl, hrest⟩ := ih h
    have hlen : (a.toList.take i).length = i := by simp; omega
    have htake : (a.toList.take i ++ some x :: a.toList.drop (i + 1)).take (i + 1) =
        a.toList.take i ++ [some x] := by
      rw [List.append_cons, List.take_left' (by simp [hlen])]
    have hdrop : (a.toList.take i ++ some x :: a.toList.drop (i + 1)).drop (i + 1 + xs.length) =
        a.toList.drop (i + (x :: xs).length) := by
      rw [List.append_cons, List.drop_append, List.drop_eq_nil_of_le (by simp; omega),
        List.nil_append, List.drop_drop]
      congr 1
      simp [hlen]
      omega
    refine ⟨by simp; omega, ?_⟩
    rw [hrest, hput, htake, hdrop]
    simp

theorem isSome_put {a : Slots n α} {i : Nat} {x : Option α} : (put a i x).isSome ↔ i < n := by
  unfold put
  split <;> simp_all

/-- The `NULL` takes a slot too. -/
theorem isSome_fillNull {a : Slots n α} {xs : List α} : (fillNull a xs).isSome ↔ xs.length < n := by
  have hfill : (fill a 0 xs).isSome ↔ 0 + xs.length ≤ n := isSome_fill (Nat.zero_le n)
  unfold fillNull
  cases h : fill a 0 xs with
  | none =>
    rw [h] at hfill
    simp at hfill ⊢
    omega
  | some b =>
    obtain ⟨b, k⟩ := b
    obtain ⟨rfl, -⟩ := toList_fill h
    change (put b (0 + xs.length) none).isSome ↔ _
    rw [isSome_put, Nat.zero_add]

/-- A filled array that is closed with a `NULL` holds the values. -/
theorem upToNull_fillNull {a c : Slots n α} {xs : List α} (h : fillNull a xs = some c) :
    upToNull c = xs := by
  obtain ⟨⟨b, k⟩, hfill, hput⟩ := Option.bind_eq_some_iff.mp h
  obtain ⟨rfl, hb⟩ := toList_fill hfill
  obtain ⟨-, hput⟩ := toList_put hput
  have htake : b.toList.take (0 + xs.length) = xs.map some := by
    rw [hb]
    simp
  have hall : ∀ x ∈ xs.map some, Option.isSome x = true := by simp
  rw [upToNull, hput, htake, List.takeWhile_append_of_pos hall,
    List.takeWhile_cons_of_neg (by simp), List.append_nil]
  change (xs.map some).filterMap id = xs
  simp

end Slots

end NetworkFileSystem.Base
