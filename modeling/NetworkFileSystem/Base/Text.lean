import Mathlib.Algebra.GroupWithZero.Nat
import Mathlib.Data.List.Basic
import Mathlib.Data.List.Infix
import Mathlib.Data.List.TakeWhile

/-!
# C strings as byte lists

General support. A `Text` is the byte content of a NUL-terminated string.
`tokens d` is the sequence of results that repeated `strtok` calls over the
single delimiter `d` return: the maximal non-empty runs of other bytes.
-/

namespace NetworkFileSystem.Base

/-- The bytes of a C string, without the terminating NUL. -/
abbrev Text := List UInt8

/-- The bytes of a literal; the C sources spell their literals in ASCII. -/
def lit (s : String) : Text := s.toList.map (fun c ↦ c.toNat.toUInt8)

/-- The words that `strtok` over the single delimiter `d` yields, in order. -/
def tokens (d : UInt8) (s : Text) : List Text := (s.splitOn d).filter (· ≠ [])

/-- The delimiter byte `' '`. -/
def blank : UInt8 := 32

/-- The delimiter byte `'/'`. -/
def slash : UInt8 := 47

/-- `strncmp(s, p, strlen(p)) == 0`. -/
def startsWith (p s : Text) : Bool := p.isPrefixOf s


/-- The bytes before the first NUL of a received buffer. -/
def cstr (s : Text) : Text := s.takeWhile (· ≠ 0)

/-- `%d` of a non-negative value. -/
def decimal (n : Nat) : Text := (Nat.toDigits 10 n).map (fun c ↦ c.toNat.toUInt8)

/-- What `snprintf` leaves of `s` in a buffer of `size` bytes. -/
def clip (size : Nat) (s : Text) : Text := s.take (size - 1)

/-- The bytes before the last occurrence of `d`, all of them if there is none. -/
def beforeLast (d : UInt8) (s : Text) : Text :=
  if d ∈ s then ((s.reverse.dropWhile (· ≠ d)).drop 1).reverse else s

/-- The bytes behind the last occurrence of `d`, all of them if there is none. -/
def afterLast (d : UInt8) (s : Text) : Text := (s.reverse.takeWhile (· ≠ d)).reverse

/-- `strstr(s, p) != NULL`. -/
def containsText (p s : Text) : Bool := s.tails.any (startsWith p)

/-- The bytes before the place that `strstr(s, p)` points to, `none` for `NULL`. -/
def beforeText (p : Text) : Text → Option Text
  | [] => if p = [] then some [] else none
  | b :: s => if startsWith p (b :: s) then some [] else (beforeText p s).map (b :: ·)

/-! ### Words -/

variable {d : UInt8}

/-- A delimiter separates the words before it from those behind it. -/
theorem tokens_append_cons (d : UInt8) (s t : Text) :
    tokens d (s ++ d :: t) = tokens d s ++ tokens d t := by
  unfold tokens
  rw [List.splitOn_append_cons_self, List.filter_append]

theorem tokens_of_notMem {s : Text} (h : d ∉ s) (hne : s ≠ []) : tokens d s = [s] := by
  unfold tokens
  rw [List.splitOn_eq_singleton h]
  simp [hne]

@[simp] theorem tokens_nil (d : UInt8) : tokens d [] = [] := by
  simp [tokens]

@[simp] theorem tokens_cons_self (d : UInt8) (t : Text) : tokens d (d :: t) = tokens d t := by
  simpa using tokens_append_cons d [] t

theorem ne_nil_of_mem_tokens {s w : Text} (h : w ∈ tokens d s) : w ≠ [] := by
  simpa using (List.mem_filter.mp h).2

/-- Words carry no delimiter. -/
theorem notMem_of_mem_tokens {s w : Text} (h : w ∈ tokens d s) : d ∉ w := by
  induction hn : s.length using Nat.strongRecOn generalizing s with
  | ind n ih =>
    by_cases hd : d ∈ s
    · obtain ⟨a, b, rfl, ha⟩ := List.eq_append_cons_of_mem hd
      rw [tokens_append_cons, List.mem_append] at h
      obtain h | h := h
      · exact ih _ (by simp [← hn]) h rfl
      · exact ih _ (by simp [← hn]; omega) h rfl
    · by_cases hs : s = []
      · simp [hs] at h
      · rw [tokens_of_notMem hd hs, List.mem_singleton] at h
        exact h ▸ hd

/-- The words hold all bytes but the delimiters. -/
theorem flatten_tokens (s : Text) : (tokens d s).flatten = s.filter (· ≠ d) := by
  induction hn : s.length using Nat.strongRecOn generalizing s with
  | ind n ih =>
    by_cases hd : d ∈ s
    · obtain ⟨a, b, rfl, ha⟩ := List.eq_append_cons_of_mem hd
      rw [tokens_append_cons, List.flatten_append, ih _ (by simp [← hn]) a rfl,
        ih _ (by simp [← hn]; omega) b rfl]
      simp
    · by_cases hs : s = []
      · simp [hs]
      · rw [tokens_of_notMem hd hs, List.flatten_singleton, List.filter_eq_self.mpr]
        intro x hx
        simp only [decide_eq_true_eq]
        rintro rfl
        exact hd hx

/-- A text that starts with bytes other than the delimiter has them in its first word. -/
theorem tokens_append_of_notMem {p : Text} (hp : d ∉ p) (hne : p ≠ []) (t : Text) :
    ∃ w rest, tokens d (p ++ t) = (p ++ w) :: rest := by
  by_cases hd : d ∈ t
  · obtain ⟨a, b, rfl, ha⟩ := List.eq_append_cons_of_mem hd
    refine ⟨a, tokens d b, ?_⟩
    rw [← List.append_assoc, tokens_append_cons, tokens_of_notMem (by simp [hp, ha]) (by simp [hne])]
    rfl
  · exact ⟨t, [], tokens_of_notMem (by simp [hp, hd]) (by simp [hne])⟩

/-- The first word stands behind delimiters only and ends the text or meets a delimiter. -/
theorem tokens_eq_cons {s u : Text} {ws : List Text} (h : tokens d s = u :: ws) :
    ∃ k t, s = List.replicate k d ++ (u ++ t) ∧
      ((t = [] ∧ ws = []) ∨ ∃ t', t = d :: t' ∧ tokens d t' = ws) := by
  induction s with
  | nil => simp at h
  | cons a s ih =>
    by_cases ha : a = d
    · subst ha
      rw [tokens_cons_self] at h
      obtain ⟨k, t, rfl, ht⟩ := ih h
      exact ⟨k + 1, t, rfl, ht⟩
    · refine ⟨0, ?_⟩
      by_cases hd : d ∈ a :: s
      · obtain ⟨w, t', hs, hw⟩ := List.eq_append_cons_of_mem hd
        have hne : w ≠ [] := by
          rintro rfl
          exact ha (List.cons.inj hs).1
        rw [hs, tokens_append_cons, tokens_of_notMem hw hne] at h
        obtain ⟨rfl, hws⟩ := List.cons.inj h
        exact ⟨d :: t', by simpa using hs, .inr ⟨t', rfl, hws⟩⟩
      · rw [tokens_of_notMem hd (by simp)] at h
        obtain ⟨rfl, rfl⟩ := List.cons.inj h
        exact ⟨[], by simp, .inl ⟨rfl, rfl⟩⟩

/-- The first word of a text that starts with bytes other than the delimiter starts with them. -/
theorem tokens_eq_cons_of_prefix {p s u : Text} {ws : List Text} (hp : d ∉ p) (hne : p ≠ [])
    (hpre : p <+: s) (h : tokens d s = u :: ws) :
    ∃ g t, u = p ++ g ∧ s.drop p.length = g ++ t ∧
      ((t = [] ∧ ws = []) ∨ ∃ t', t = d :: t' ∧ tokens d t' = ws) := by
  obtain ⟨r, rfl⟩ := hpre
  obtain ⟨b, p, rfl⟩ := List.exists_cons_of_ne_nil hne
  obtain ⟨k, t, hs, ht⟩ := tokens_eq_cons h
  have hk : k = 0 := by
    cases k with
    | zero => rfl
    | succ k =>
      rw [List.replicate_succ, List.cons_append, List.cons_append, List.cons.injEq] at hs
      exact absurd (hs.1 ▸ List.mem_cons_self) hp
  rw [hk, List.replicate_zero, List.nil_append] at hs
  obtain ⟨g, hu, hr⟩ | ⟨c, hc, htail⟩ := List.append_eq_append_iff.mp hs
  · exact ⟨g, t, hu, by rw [List.drop_left, hr], ht⟩
  · cases c with
    | nil => exact ⟨[], t, by simpa using hc.symm, by rw [List.drop_left, htail]; rfl, ht⟩
    | cons x c =>
      obtain ⟨rfl, -⟩ | ⟨t', rfl, -⟩ := ht
      · cases htail
      · obtain ⟨rfl, -⟩ := List.cons.inj htail
        exact absurd (hc ▸ by simp) hp

/-- A text with a delimiter is what stands before and behind the last one. -/
theorem split_last {s : Text} (h : d ∈ s) :
    s = beforeLast d s ++ d :: afterLast d s ∧ d ∉ afterLast d s := by
  obtain ⟨b, a, hs, hb⟩ := List.eq_append_cons_of_mem (List.mem_reverse.mpr h)
  have hne : ∀ x ∈ b, decide (x ≠ d) = true := by
    intro x hx
    simp only [decide_eq_true_eq]
    rintro rfl
    exact hb hx
  have hbefore : beforeLast d s = a.reverse := by
    rw [beforeLast, if_pos h, hs, List.dropWhile_append_of_pos hne]
    simp
  have hafter : afterLast d s = b.reverse := by
    rw [afterLast, hs, List.takeWhile_append_of_pos hne]
    simp
  rw [hbefore, hafter]
  refine ⟨?_, by simpa using hb⟩
  rw [← List.reverse_reverse s, hs]
  simp

theorem beforeLast_of_notMem {s : Text} (h : d ∉ s) : beforeLast d s = s := by
  simp [beforeLast, h]

theorem beforeLast_append_cons {s t : Text} (h : d ∉ t) : beforeLast d (s ++ d :: t) = s := by
  have hne : ∀ x ∈ t.reverse, decide (x ≠ d) = true := by
    intro x hx
    simp only [decide_eq_true_eq]
    rintro rfl
    exact h (List.mem_reverse.mp hx)
  rw [beforeLast, if_pos (by simp), List.reverse_append, List.reverse_cons, List.append_assoc,
    List.dropWhile_append_of_pos hne]
  simp

theorem afterLast_append_cons {s t : Text} (h : d ∉ t) : afterLast d (s ++ d :: t) = t := by
  have hsplit := split_last (d := d) (s := s ++ d :: t) (by simp)
  rw [beforeLast_append_cons h] at hsplit
  exact (List.cons.inj (List.append_cancel_left hsplit.1)).2.symm

/-! ### Parts -/

/-- If a text is cut off, only its last word can be another one. -/
theorem mem_tokens_of_mem_dropLast {s t w : Text} (h : w ∈ (tokens d s).dropLast) :
    w ∈ tokens d (s ++ t) := by
  by_cases hd : d ∈ s
  · obtain ⟨hs, hlast⟩ := split_last hd
    generalize beforeLast d s = u at hs
    generalize afterLast d s = v at hs hlast
    subst hs
    rw [List.append_assoc, List.cons_append, tokens_append_cons, List.mem_append]
    rw [tokens_append_cons] at h
    refine .inl ?_
    by_cases hv : v = []
    · subst hv
      rw [tokens_nil, List.append_nil] at h
      exact List.mem_of_mem_dropLast h
    · rwa [tokens_of_notMem hlast hv, List.dropLast_concat] at h
  · by_cases hs : s = []
    · simp [hs] at h
    · simp [tokens_of_notMem hd hs] at h

theorem startsWith_cstr {p : Text} (hp : 0 ∉ p) (s : Text) :
    startsWith p (cstr s) = startsWith p s := by
  induction p generalizing s with
  | nil => rfl
  | cons a p ih =>
    have ha : a ≠ 0 := fun h ↦ hp (by simp [h])
    cases s with
    | nil => rfl
    | cons b s =>
      by_cases hb : b = 0
      · subst hb
        simp [startsWith, cstr, List.isPrefixOf, ha]
      · have hcstr : cstr (b :: s) = b :: cstr s := by simp [cstr, hb]
        have hrest := ih (fun h ↦ hp (by simp [h])) s
        simp only [startsWith] at hrest ⊢
        rw [hcstr, List.isPrefixOf, List.isPrefixOf, hrest]

theorem cstr_eq_self {s : Text} (h : 0 ∉ s) : cstr s = s := by
  rw [cstr, List.takeWhile_eq_self_iff]
  intro b hb
  simp only [decide_eq_true_eq]
  rintro rfl
  exact h hb

theorem containsText_iff {p s : Text} : containsText p s = true ↔ p <:+: s := by
  simp only [containsText, List.any_eq_true, List.mem_tails, startsWith,
    List.isPrefixOf_iff_prefix, List.infix_iff_prefix_suffix]
  exact ⟨fun ⟨t, ht, hp⟩ ↦ ⟨t, hp, ht⟩, fun ⟨t, hp, ht⟩ ↦ ⟨t, ht, hp⟩⟩

theorem beforeText_eq_none {p s : Text} : beforeText p s = none ↔ ¬ p <:+: s := by
  induction s with
  | nil => simp [beforeText]
  | cons b s ih =>
    rw [beforeText, List.infix_cons_iff]
    split
    · next h => simp [List.isPrefixOf_iff_prefix.mp h]
    · next h =>
      have hnot : ¬ p <+: b :: s := fun hp ↦ h (List.isPrefixOf_iff_prefix.mpr hp)
      simp [hnot, ih]

theorem prefix_of_beforeText {p s u : Text} (h : beforeText p s = some u) : u <+: s := by
  induction s generalizing u with
  | nil =>
    rw [beforeText] at h
    split at h
    · cases h
      exact List.prefix_refl _
    · cases h
  | cons b s ih =>
    rw [beforeText] at h
    split at h
    · cases h
      exact List.nil_prefix
    · rcases Option.map_eq_some_iff.mp h with ⟨v, hv, rfl⟩
      exact List.cons_prefix_cons.mpr ⟨rfl, ih hv⟩

/-- The first place is the one at which the text ends for the first time in `p`. -/
theorem beforeText_append {p u v : Text} (hne : p ≠ []) (h : ¬ p <:+: u ++ p.dropLast) :
    beforeText p (u ++ p ++ v) = some u := by
  induction u with
  | nil =>
    obtain ⟨b, p, rfl⟩ := List.exists_cons_of_ne_nil hne
    have hstart : startsWith (b :: p) (b :: p ++ v) = true :=
      List.isPrefixOf_iff_prefix.mpr (List.prefix_append _ _)
    rw [List.nil_append, List.cons_append, beforeText, ← List.cons_append, if_pos hstart]
  | cons b u ih =>
    have hstart : ¬ startsWith p (b :: u ++ p ++ v) = true := by
      intro hp
      apply h
      have hpre : p <+: b :: u ++ p ++ v := List.isPrefixOf_iff_prefix.mp hp
      have hshort : p.length ≤ (b :: u ++ p.dropLast).length := by
        simp
        omega
      apply List.IsPrefix.isInfix
      apply List.prefix_of_prefix_length_le hpre _ hshort
      rw [List.append_assoc]
      apply List.prefix_append_right_inj _ |>.mpr
      exact (List.dropLast_prefix p).trans (List.prefix_append p v)
    have hrest : ¬ p <:+: u ++ p.dropLast := by
      intro hp
      exact h (hp.trans (List.suffix_cons b _).isInfix)
    rw [List.cons_append, List.cons_append, beforeText, ← List.cons_append, ← List.cons_append,
      if_neg hstart, ih hrest]
    rfl

/-- A part without `b` lies before or behind a `b`. -/
theorem infix_of_infix_append_cons {m u v : Text} {b : UInt8} (hb : b ∉ m)
    (h : m <:+: u ++ b :: v) : m <:+: u ∨ m <:+: v := by
  obtain ⟨s, t, hst⟩ := h
  obtain ⟨c, hu, -⟩ | ⟨c, hsm, hv⟩ := List.append_eq_append_iff.mp hst
  · exact .inl ⟨s, c, hu.symm⟩
  · cases c with
    | nil => exact .inl ⟨s, [], by simpa using hsm⟩
    | cons x c =>
      obtain ⟨rfl, rfl⟩ := List.cons.inj hv
      obtain ⟨a, -, hm⟩ | ⟨a, -, hm⟩ := List.append_eq_append_iff.mp hsm
      · exact absurd (hm ▸ by simp) hb
      · cases a with
        | nil =>
          rw [List.nil_append] at hm
          exact absurd (hm ▸ List.mem_cons_self) hb
        | cons y a =>
          obtain ⟨-, rfl⟩ := List.cons.inj hm
          exact .inr ⟨a, t, rfl⟩

/-- The pieces between delimiters are parts of the text. -/
theorem infix_of_mem_splitOn {s l : Text} (h : l ∈ s.splitOn d) : l <:+: s := by
  induction hn : s.length using Nat.strongRecOn generalizing s with
  | ind n ih =>
    by_cases hd : d ∈ s
    · obtain ⟨a, b, rfl, ha⟩ := List.eq_append_cons_of_mem hd
      rw [List.splitOn_append_cons_self, List.mem_append] at h
      obtain h | h := h
      · exact (ih _ (by simp [← hn]) h rfl).trans (List.prefix_append _ _).isInfix
      · exact (ih _ (by simp [← hn]; omega) h rfl).trans
          ((List.suffix_cons d b).trans (List.suffix_append a _)).isInfix
    · rw [List.splitOn_eq_singleton hd, List.mem_singleton] at h
      exact h ▸ List.infix_refl _

/-! ### Numbers -/

private theorem toNat_of_isDigit {c : Char} (h : c.isDigit) :
    c.toNat.toUInt8.toNat = c.toNat ∧ 48 ≤ c.toNat ∧ c.toNat ≤ 57 := by
  simp only [Char.isDigit, ge_iff_le, Bool.and_eq_true, decide_eq_true_eq,
    UInt32.le_iff_toNat_le] at h
  have hbound : 48 ≤ c.toNat ∧ c.toNat ≤ 57 := h
  refine ⟨?_, hbound⟩
  rw [Nat.toUInt8_eq, UInt8.toNat_ofNat']
  omega

/-- A decimal number consists of digits. -/
theorem digit_of_mem_decimal {n : Nat} {b : UInt8} (h : b ∈ decimal n) :
    48 ≤ b.toNat ∧ b.toNat ≤ 57 := by
  obtain ⟨c, hc, rfl⟩ := List.mem_map.mp h
  have hdigit := Nat.isDigit_of_mem_toDigits (by decide) (by decide) hc
  obtain ⟨heq, hbound⟩ := toNat_of_isDigit hdigit
  rwa [heq]

theorem decimal_ne_nil (n : Nat) : decimal n ≠ [] := by
  simp [decimal]

theorem length_decimal_le {n k : Nat} (hk : 0 < k) (h : n < 10 ^ k) : (decimal n).length ≤ k := by
  rw [decimal, List.length_map]
  exact (Nat.length_toDigits_le_iff (by decide) hk).mpr h

/-- The value of a run of digits. -/
def digitsValue (digits : Text) : Nat := digits.foldl (fun n b ↦ 10 * n + (b.toNat - 48)) 0

/-- The digits of a number give it back. -/
theorem digitsValue_decimal (n : Nat) : digitsValue (decimal n) = n := by
  have hfold : ∀ (cs : List Char) (m : Nat), (∀ c ∈ cs, c.isDigit) →
      (cs.map (fun c ↦ c.toNat.toUInt8)).foldl (fun n b ↦ 10 * n + (b.toNat - 48)) m =
        Nat.ofDigitChars 10 cs m := by
    intro cs
    induction cs with
    | nil => simp
    | cons c cs ih =>
      intro m hcs
      have hc := (toNat_of_isDigit (hcs c (by simp))).1
      rw [List.map_cons, List.foldl_cons, hc, ih _ (fun c hc ↦ hcs c (by simp [hc])),
        Nat.ofDigitChars_cons]
      rfl
  unfold digitsValue decimal
  rw [hfold _ 0 (fun c hc ↦ Nat.isDigit_of_mem_toDigits (by decide) (by decide) hc),
    Nat.ofDigitChars_ten_toDigits]

end NetworkFileSystem.Base
