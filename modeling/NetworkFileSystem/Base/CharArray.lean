import NetworkFileSystem.Base.Text

/-!
# Byte arrays of a fixed size

General support. A `CharArray n` is a C array of `n` bytes; the length is part of the value.
Stores go to consecutive indices and are meant to stay inside the array; `write` and `poke` are
those that may not. `snprintf` prints as much of a text as its size argument allows and ends it
with a NUL.
-/

namespace NetworkFileSystem.Base

/-- `char a[n]`. -/
structure CharArray (n : Nat) where
  bytes : Text
  length_bytes : bytes.length = n

namespace CharArray

variable {n : Nat}

/-- `char a[n] = {0}`. -/
def zeros (n : Nat) : CharArray n := ⟨List.replicate n 0, List.length_replicate⟩

/-- Put the bytes `t` at the indices from `i` on. -/
def store (a : CharArray n) (i : Nat) (t : Text) : CharArray n where
  bytes := a.bytes.mapIdx (fun j b ↦ if i ≤ j then t[j - i]?.getD b else b)
  length_bytes := by simp [a.length_bytes]

/-- `snprintf(a + i, size, "%s", t)`; the value returned by C is the length of `t`. -/
def snprintf (a : CharArray n) (i size : Nat) (t : Text) : CharArray n :=
  if size = 0 then a else a.store i (clip size t ++ [0])

/-- The string at the start of the array. -/
def text (a : CharArray n) : Text := cstr a.bytes

/-- `memcpy(a + i, t, …)`, undefined if it leaves the array. -/
def write (a : CharArray n) (i : Nat) (t : Text) : Option (CharArray n) :=
  if i + t.length ≤ n then some (a.store i t) else none

/-- `a[i] = b`, undefined if `i` is not an index. -/
def poke (a : CharArray n) (i : Int) (b : UInt8) : Option (CharArray n) :=
  if 0 ≤ i ∧ i < n then some (a.store i.toNat [b]) else none

/-- `sprintf(a, "%s", t)`. -/
def sprintf (a : CharArray n) (t : Text) : Option (CharArray n) := a.write 0 (t ++ [0])

/-- `strcat(a, t)`. -/
def strcat (a : CharArray n) (t : Text) : Option (CharArray n) :=
  a.write a.text.length (t ++ [0])

/-- `memmove(a + strlen(t), a + k, strlen(a + k) + 1)` and `memcpy(a, t, strlen(t))`: the first
`k` bytes give way to `t`. -/
def splice (a : CharArray n) (k : Nat) (t : Text) : Option (CharArray n) := do
  let a ← a.write t.length (cstr (a.bytes.drop k) ++ [0])
  a.write 0 t

@[ext] theorem ext {a b : CharArray n} (h : a.bytes = b.bytes) : a = b := by
  cases a
  cases b
  cases h
  rfl

/-- A store splits the array into what is before, at and behind it. -/
theorem bytes_store {a : CharArray n} {i : Nat} {t : Text} (h : i + t.length ≤ n) :
    (a.store i t).bytes = a.bytes.take i ++ t ++ a.bytes.drop (i + t.length) := by
  have hlen := a.length_bytes
  apply List.ext_getElem
  · simp [store]
    omega
  · intro j h₁ h₂
    simp only [store, List.getElem_mapIdx]
    by_cases hi : i ≤ j
    · rw [if_pos hi]
      by_cases ht : j - i < t.length
      · rw [List.getElem?_eq_getElem ht, Option.getD_some, List.getElem_append_left (by simp; omega),
          List.getElem_append_right (by simp; omega)]
        congr 1
        simp
        omega
      · rw [List.getElem?_eq_none (by omega), Option.getD_none,
          List.getElem_append_right (by simp; omega), List.getElem_drop]
        congr 1
        simp
        omega
    · rw [if_neg hi, List.getElem_append_left (by simp; omega),
        List.getElem_append_left (by simp; omega), List.getElem_take]

/-- What is in front of a store stays. -/
theorem take_store {a : CharArray n} {i k : Nat} {t : Text} (h : i + t.length ≤ n) (hk : k ≤ i) :
    (a.store i t).bytes.take k = a.bytes.take k := by
  have hlen := a.length_bytes
  rw [bytes_store h, List.append_assoc, List.take_append_of_le_length (by simp; omega),
    List.take_take, Nat.min_eq_left hk]

/-- Up to the end of a store there is what was in front of it, and the stored bytes. -/
theorem take_store_end {a : CharArray n} {i : Nat} {t : Text} (h : i + t.length ≤ n) :
    (a.store i t).bytes.take (i + t.length) = a.bytes.take i ++ t := by
  have hlen := a.length_bytes
  rw [bytes_store h]
  apply List.take_left'
  simp
  omega

/-- A cleared array with a text in it has a NUL if the text leaves one or has one. -/
theorem zero_mem_store_zeros {t : Text} :
    0 ∈ ((zeros n).store 0 t).bytes ↔ t.length < n ∨ 0 ∈ t.take n := by
  have hget : ∀ j < n, ((zeros n).store 0 t).bytes[j]? = some (t[j]?.getD 0) := fun j hj ↦ by
    simp [store, zeros, hj]
  constructor
  · intro h
    obtain ⟨j, hj, hzero⟩ := List.mem_iff_getElem.mp h
    rw [length_bytes] at hj
    rw [← Option.some.injEq, ← List.getElem?_eq_getElem, hget j hj, Option.some.injEq] at hzero
    by_cases hin : j < t.length
    · rw [List.getElem?_eq_getElem hin, Option.getD_some] at hzero
      exact .inr (hzero ▸ List.getElem_take' hin hj ▸ List.getElem_mem _)
    · exact .inl (by omega)
  · rintro (hlt | hmem)
    · refine List.mem_of_getElem? (i := t.length) ?_
      rw [hget _ hlt, List.getElem?_eq_none le_rfl, Option.getD_none]
    · obtain ⟨j, hj, hzero⟩ := List.mem_iff_getElem.mp hmem
      rw [List.length_take, Nat.lt_min] at hj
      refine List.mem_of_getElem? (i := j) ?_
      rw [hget j hj.1, List.getElem?_eq_getElem hj.2, Option.getD_some, ← hzero, List.getElem_take]

/-- A text that fits behind `i` bytes is printed whole. -/
theorem take_snprintf {a : CharArray n} {i : Nat} {t : Text} (h : i + t.length < n) :
    (a.snprintf i (n - i) t).bytes.take (i + t.length) = a.bytes.take i ++ t := by
  have hclip : clip (n - i) t = t := List.take_of_length_le (by omega)
  rw [snprintf, if_neg (by omega), hclip]
  have hlen := a.length_bytes
  have hstore : i + (t ++ [0]).length ≤ n := by
    simp
    omega
  have hsplit : a.bytes.take i ++ (t ++ [0]) ++ a.bytes.drop (i + (t ++ [0]).length) =
      (a.bytes.take i ++ t) ++ ([0] ++ a.bytes.drop (i + (t ++ [0]).length)) := by simp
  rw [bytes_store hstore, hsplit]
  apply List.take_left'
  simp
  omega

/-- Printing leaves what is in front of it. -/
theorem take_snprintf_of_le {a : CharArray n} {i k : Nat} {t : Text} (hi : i ≤ n) (hk : k ≤ i) :
    (a.snprintf i (n - i) t).bytes.take k = a.bytes.take k := by
  unfold snprintf
  split
  · rfl
  · apply take_store _ hk
    simp [clip]
    omega

/-! ### Strings in arrays -/

/-- The array holds the string `t` and its NUL. -/
def Holds (a : CharArray n) (t : Text) : Prop := 0 ∉ t ∧ (t ++ [0]) <+: a.bytes

theorem cstr_append_zero (t u : Text) : cstr (t ++ 0 :: u) = cstr t := by
  induction t with
  | nil => rfl
  | cons b t ih =>
    unfold cstr at ih ⊢
    rw [List.cons_append, List.takeWhile_cons, List.takeWhile_cons, ih]

theorem Holds.text_eq {a : CharArray n} {t : Text} (h : a.Holds t) : a.text = t := by
  obtain ⟨h0, u, hu⟩ := h
  rw [text, ← hu, List.append_assoc, List.singleton_append, cstr_append_zero, cstr_eq_self h0]

/-- What the array holds from `k` on. -/
theorem Holds.cstr_drop {a : CharArray n} {t : Text} (h : a.Holds t) {k : Nat}
    (hk : k ≤ t.length) : cstr (a.bytes.drop k) = t.drop k := by
  obtain ⟨h0, u, hu⟩ := h
  rw [← hu, List.append_assoc, List.drop_append_of_le_length hk, List.singleton_append,
    cstr_append_zero, cstr_eq_self (fun hmem ↦ h0 (List.mem_of_mem_drop hmem))]

theorem write_eq_some {a b : CharArray n} {i : Nat} {t : Text} :
    a.write i t = some b ↔ i + t.length ≤ n ∧ b = a.store i t := by
  rw [write, Option.ite_none_right_eq_some, Option.some.injEq, eq_comm (a := b)]

theorem isSome_write {a : CharArray n} {i : Nat} {t : Text} :
    (a.write i t).isSome ↔ i + t.length ≤ n := by
  rw [write]
  split <;> simp_all

/-- A string that is written behind others is held with them. -/
theorem holds_store {a : CharArray n} {u t : Text} (hu : u <+: a.bytes) (hu0 : 0 ∉ u)
    (ht0 : 0 ∉ t) (h : u.length + (t ++ [0]).length ≤ n) :
    (a.store u.length (t ++ [0])).Holds (u ++ t) := by
  refine ⟨by simp [hu0, ht0], ?_⟩
  rw [bytes_store h, ← List.prefix_iff_eq_take.mp hu, List.append_assoc, ← List.append_assoc u t]
  simp

theorem isSome_poke {a : CharArray n} {i : Int} {b : UInt8} :
    (a.poke i b).isSome ↔ 0 ≤ i ∧ i < n := by
  rw [poke]
  split <;> simp_all

/-- A NUL behind the bytes of a receive makes them a string. -/
theorem text_poke {a b : CharArray n} {t : Text}
    (hb : (a.store 0 t).poke t.length 0 = some b) : b.text = cstr t := by
  rw [poke, Option.ite_none_right_eq_some, Option.some.injEq] at hb
  obtain ⟨⟨-, hlt⟩, rfl⟩ := hb
  have hroom : t.length + [(0 : UInt8)].length ≤ n := by
    rw [List.length_singleton]
    omega
  have htake := take_store_end (a := a) (i := 0) (t := t) (by omega)
  rw [Nat.zero_add, List.take_zero, List.nil_append] at htake
  rw [text, Int.toNat_natCast, bytes_store hroom, htake, List.append_assoc, List.singleton_append,
    cstr_append_zero]

theorem isSome_sprintf {a : CharArray n} {t : Text} : (a.sprintf t).isSome ↔ t.length < n := by
  rw [sprintf, isSome_write, List.length_append, List.length_singleton]
  omega

theorem Holds.isSome_splice {a : CharArray n} {t u : Text} (h : a.Holds t) {k : Nat}
    (hk : k ≤ t.length) : (a.splice k u).isSome ↔ u.length + (t.length - k) < n := by
  have hlen : (t.drop k ++ [0]).length = t.length - k + 1 := by simp
  rw [splice, h.cstr_drop hk, write, hlen]
  split
  · next hle =>
    change (CharArray.write _ 0 u).isSome ↔ _
    rw [isSome_write]
    omega
  · next hgt =>
    constructor
    · intro hnone
      cases hnone
    · intro hfits
      omega

theorem Holds.splice_eq_some {a b : CharArray n} {t u : Text} (h : a.Holds t) {k : Nat}
    (hk : k ≤ t.length) (hu : 0 ∉ u) (hb : a.splice k u = some b) : b.Holds (u ++ t.drop k) := by
  obtain ⟨c, hc, hb⟩ := Option.bind_eq_some_iff.mp hb
  rw [h.cstr_drop hk] at hc
  obtain ⟨hlen, rfl⟩ := write_eq_some.mp hc
  obtain ⟨hlen', rfl⟩ := write_eq_some.mp hb
  refine ⟨?_, ?_⟩
  · rw [List.mem_append]
    rintro (hmem | hmem)
    · exact hu hmem
    · exact h.1 (List.mem_of_mem_drop hmem)
  · have htake : (a.bytes.take u.length).length = u.length := by
      simp [a.length_bytes]
      omega
    have hdrop : (a.store u.length (t.drop k ++ [0])).bytes.drop (0 + u.length) =
        t.drop k ++ [0] ++ a.bytes.drop (u.length + (t.drop k ++ [0]).length) := by
      rw [bytes_store hlen, List.append_assoc, Nat.zero_add, List.drop_left' htake]
    rw [bytes_store hlen', hdrop, List.take_zero, List.nil_append, List.append_assoc,
      List.append_assoc]
    simp

theorem Holds.isSome_strcat {a : CharArray n} {t u : Text} (h : a.Holds t) :
    (a.strcat u).isSome ↔ t.length + u.length < n := by
  rw [strcat, isSome_write, h.text_eq, List.length_append, List.length_singleton]
  omega

theorem Holds.strcat_eq_some {a b : CharArray n} {t u : Text} (h : a.Holds t) (hu : 0 ∉ u)
    (hb : a.strcat u = some b) : b.Holds (t ++ u) := by
  rw [strcat, h.text_eq] at hb
  obtain ⟨hlen, rfl⟩ := write_eq_some.mp hb
  exact holds_store ((List.prefix_append t [0]).trans h.2) h.1 hu hlen

end CharArray

end NetworkFileSystem.Base
