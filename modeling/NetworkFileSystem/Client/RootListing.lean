import NetworkFileSystem.Base.CharArray
import NetworkFileSystem.Protocol.Message

/-!
# The end of a root listing

`client.c:406–418`. The client looks for the marker in every result of `recv`, before it ends
that result with a NUL, so behind a result it also sees what longer ones have left in the array.
-/

namespace NetworkFileSystem.Client

open Base Protocol

/-- `strstr(buffer2, "@#!@#over@$")`: what stands before the marker, `some none` without it. The
outer `none` is a search that runs past the array. -/
def searchOver (buffer : CharArray bufferSize) : Option (Option Text) :=
  match beforeText listingOver buffer.text with
  | some before => some (some before)
  | none => if 0 ∈ buffer.bytes then some none else none

/-- The loop at `client.c:409–418` over the results of `recv`: what is printed, and the results
that are not consumed. The answer `none` is a loop that waits for more, or leaves the array. -/
def receiveListing : List Text → CharArray bufferSize → Option (Text × List Text)
  | [], _ => none
  | bytes :: rest, buffer =>
    let buffer := buffer.store 0 bytes
    match searchOver buffer with
    | none => none
    | some (some before) => some (before, rest)
    | some none =>
      if bytes.length < bufferSize then
        let buffer := buffer.store bytes.length [0]
        (receiveListing rest buffer).map (fun r ↦ (buffer.text ++ r.1, r.2))
      else none

/-! ### What the array holds -/

/-- The string at index `j` of an array that has received the results `seen`, the latest one
first: what the latest result of at least that length has left. -/
def leftAt (seen : List Text) (j : Nat) : Text :=
  match seen.find? (fun bytes ↦ decide (j ≤ bytes.length)) with
  | some bytes => bytes.drop j
  | none => []

/-- The array holds the remains of the results `seen` and ends with a NUL. -/
structure Tracks (buffer : CharArray bufferSize) (seen : List Text) : Prop where
  left : ∀ j, cstr (buffer.bytes.drop j) = leftAt seen j
  ended : buffer.bytes.getLast? = some 0

/-- The array behind a round without the marker. -/
def keep (buffer : CharArray bufferSize) (bytes : Text) : CharArray bufferSize :=
  (buffer.store 0 bytes).store bytes.length [0]

private theorem cstr_append {u v : Text} (hu : 0 ∉ u) : cstr (u ++ v) = u ++ cstr v := by
  apply List.takeWhile_append_of_pos
  intro x hx
  simp only [decide_eq_true_eq]
  rintro rfl
  exact hu hx

private theorem cstr_zeros (k : Nat) : cstr (List.replicate k 0) = [] := by
  cases k with
  | zero => rfl
  | succ k => simp [cstr, List.replicate_succ]

theorem tracks_zeros : Tracks (CharArray.zeros bufferSize) [] := by
  constructor
  · intro j
    rw [CharArray.zeros, List.drop_replicate, cstr_zeros]
    rfl
  · show (List.replicate bufferSize (0 : UInt8)).getLast? = some 0
    rw [List.getLast?_replicate]
    rfl

section Array

variable {buffer : CharArray bufferSize} {seen : List Text} {bytes : Text}

private theorem bytes_received (hlen : bytes.length ≤ bufferSize) :
    (buffer.store 0 bytes).bytes = bytes ++ buffer.bytes.drop bytes.length := by
  rw [CharArray.bytes_store (by omega)]
  simp

private theorem bytes_keep (hlen : bytes.length < bufferSize) :
    (keep buffer bytes).bytes = bytes ++ 0 :: buffer.bytes.drop (bytes.length + 1) := by
  have hone : bytes.length + ([0] : Text).length ≤ bufferSize := by
    simp
    omega
  rw [keep, CharArray.bytes_store hone, bytes_received (by omega), List.take_left' rfl,
    List.drop_append, List.drop_drop, List.drop_eq_nil_of_le (by simp)]
  simp

/-- What `strstr` sees of a result. -/
theorem Tracks.text (h : Tracks buffer seen) (hnul : 0 ∉ bytes) (hlen : bytes.length ≤ bufferSize) :
    (buffer.store 0 bytes).text = bytes ++ leftAt seen bytes.length := by
  rw [CharArray.text, bytes_received hlen, cstr_append hnul, h.left]

theorem Tracks.keep (h : Tracks buffer seen) (hnul : 0 ∉ bytes) (hlen : bytes.length < bufferSize) :
    Tracks (keep buffer bytes) (bytes :: seen) := by
  have hbytes : (Client.keep buffer bytes).bytes = _ := bytes_keep hlen
  constructor
  · intro j
    rw [hbytes, leftAt]
    by_cases hj : j ≤ bytes.length
    · rw [List.find?_cons_of_pos (by simpa using hj), List.drop_append_of_le_length hj,
        cstr_append (fun hmem ↦ hnul (List.mem_of_mem_drop hmem))]
      simp [cstr]
    · have hold : (bytes ++ 0 :: buffer.bytes.drop (bytes.length + 1)).drop j =
          buffer.bytes.drop j := by
        have hsplit : bytes ++ 0 :: buffer.bytes.drop (bytes.length + 1) =
            (bytes ++ [0]) ++ buffer.bytes.drop (bytes.length + 1) := by simp
        have hshort : (bytes ++ [0]).length = bytes.length + 1 := by simp
        rw [hsplit, List.drop_append, List.drop_eq_nil_of_le (by omega), hshort, List.drop_drop,
          List.nil_append]
        congr 1
        omega
      rw [List.find?_cons_of_neg (by simpa using hj), hold, h.left, leftAt]
  · rw [hbytes]
    by_cases hlast : bytes.length + 1 < bufferSize
    · have hold : (buffer.bytes.drop (bytes.length + 1)).getLast? = some 0 := by
        rw [List.getLast?_drop, buffer.length_bytes, if_neg (by omega), h.ended]
      rw [List.getLast?_append, List.getLast?_cons, hold]
      rfl
    · have hnone : buffer.bytes.drop (bytes.length + 1) = [] := by
        apply List.drop_eq_nil_of_le
        rw [buffer.length_bytes]
        omega
      rw [hnone]
      simp

/-- What is printed of a result without the marker. -/
private theorem text_keep (hnul : 0 ∉ bytes) (hlen : bytes.length < bufferSize) :
    (keep buffer bytes).text = bytes := by
  rw [CharArray.text, bytes_keep hlen, cstr_append hnul]
  simp [cstr]

/-- A result that is shorter than the array leaves it with a NUL. -/
private theorem Tracks.zero_mem (h : Tracks buffer seen) (hlen : bytes.length < bufferSize) :
    0 ∈ (buffer.store 0 bytes).bytes := by
  have hlast : (buffer.bytes.drop bytes.length).getLast? = some 0 := by
    rw [List.getLast?_drop, buffer.length_bytes, if_neg (by omega), h.ended]
  rw [bytes_received (by omega)]
  exact List.mem_append_right _ (List.mem_of_getLast? hlast)

end Array

/-! ### Rounds -/

/-- Every result is shorter than the array, and what is left behind it does not complete the
marker. -/
def Quiet (seen : List Text) : List Text → Prop
  | [] => True
  | bytes :: rest => bytes.length < bufferSize ∧
      ¬ listingOver <:+: bytes ++ leftAt seen bytes.length ∧ Quiet (bytes :: seen) rest

section Rounds

variable {buffer : CharArray bufferSize} {seen rest : List Text} {bytes printed : Text}

/-- A result in front of others is passed exactly if it is quiet. -/
private theorem receiveListing_cons (h : Tracks buffer seen) (hnul : 0 ∉ bytes)
    (hlen : bytes.length ≤ bufferSize) (hrest : rest ≠ []) :
    receiveListing (bytes :: rest) buffer = some (printed, []) ↔
      (bytes.length < bufferSize ∧ ¬ listingOver <:+: bytes ++ leftAt seen bytes.length) ∧
        ∃ later, printed = bytes ++ later ∧
          receiveListing rest (keep buffer bytes) = some (later, []) := by
  rw [receiveListing]
  simp only [searchOver, h.text hnul hlen]
  cases hsearch : beforeText listingOver (bytes ++ leftAt seen bytes.length) with
  | some before =>
    have hfound : listingOver <:+: bytes ++ leftAt seen bytes.length := by
      by_contra hnot
      rw [beforeText_eq_none.mpr hnot] at hsearch
      cases hsearch
    simp [hfound, hrest]
  | none =>
    have hquiet := beforeText_eq_none.mp hsearch
    by_cases hshort : bytes.length < bufferSize
    · have hkeep : (buffer.store 0 bytes).store bytes.length [0] = keep buffer bytes := rfl
      rw [if_pos (h.zero_mem hshort)]
      simp only [hshort, if_true, hquiet, not_false_eq_true, true_and, hkeep, text_keep hnul hshort,
        Option.map_eq_some_iff, Prod.mk.injEq, Prod.exists]
      constructor
      · rintro ⟨later, unread, hlater, rfl, rfl⟩
        exact ⟨later, rfl, hlater⟩
      · rintro ⟨later, rfl, hlater⟩
        exact ⟨later, [], hlater, rfl, rfl⟩
    · have hnot : ¬ (bytes.length < bufferSize ∧
          ¬ listingOver <:+: bytes ++ leftAt seen bytes.length) := fun hq ↦ hshort hq.1
      simp only [hnot, false_and, iff_false, if_neg hshort]
      split_ifs <;> simp

/-- Results in front of others. The induction is on them; the array tracks what has been seen. -/
private theorem receiveListing_append {earlier : List Text} (h : Tracks buffer seen)
    (hnul : ∀ c ∈ earlier, 0 ∉ c) (hlen : ∀ c ∈ earlier, c.length ≤ bufferSize)
    (hrest : rest ≠ []) :
    receiveListing (earlier ++ rest) buffer = some (printed, []) ↔
      Quiet seen earlier ∧ ∃ later, printed = earlier.flatten ++ later ∧
        receiveListing rest (earlier.foldl keep buffer) = some (later, []) := by
  induction earlier generalizing buffer seen printed with
  | nil => simp [Quiet]
  | cons c earlier ih =>
    have hc := hnul c List.mem_cons_self
    rw [List.cons_append, receiveListing_cons h hc (hlen c List.mem_cons_self) (by simp [hrest]),
      Quiet]
    by_cases hquiet : c.length < bufferSize ∧ ¬ listingOver <:+: c ++ leftAt seen c.length
    · have hkeep := h.keep hc hquiet.1
      have hih : ∀ later, receiveListing (earlier ++ rest) (keep buffer c) = some (later, []) ↔ _ :=
        fun later ↦ ih hkeep (fun x hx ↦ hnul x (List.mem_cons_of_mem _ hx))
          (fun x hx ↦ hlen x (List.mem_cons_of_mem _ hx))
      simp only [hih, hquiet, not_false_eq_true, true_and, List.flatten_cons, List.foldl_cons]
      constructor
      · rintro ⟨_, rfl, hq, later, rfl, hlater⟩
        exact ⟨hq, later, by rw [List.append_assoc], hlater⟩
      · rintro ⟨hq, later, rfl, hlater⟩
        exact ⟨earlier.flatten ++ later, by rw [List.append_assoc], hq, later, rfl, hlater⟩
    · constructor
      · rintro ⟨hq, -⟩
        exact absurd hq hquiet
      · rintro ⟨⟨hshort, hnot, -⟩, -⟩
        exact absurd ⟨hshort, hnot⟩ hquiet

private theorem tracks_foldl {earlier : List Text} (h : Tracks buffer seen)
    (hnul : ∀ c ∈ earlier, 0 ∉ c) (hquiet : Quiet seen earlier) :
    Tracks (earlier.foldl keep buffer) (earlier.reverse ++ seen) := by
  induction earlier generalizing buffer seen with
  | nil => exact h
  | cons c earlier ih =>
    have hrest := ih (h.keep (hnul c List.mem_cons_self) hquiet.1)
      (fun x hx ↦ hnul x (List.mem_cons_of_mem _ hx)) hquiet.2.2
    simpa using hrest

/-- With the last result the loop ends exactly if the marker is in sight. -/
private theorem receiveListing_last (h : Tracks buffer seen) (hnul : 0 ∉ bytes)
    (hlen : bytes.length ≤ bufferSize) :
    receiveListing [bytes] buffer = some (printed, []) ↔
      beforeText listingOver (bytes ++ leftAt seen bytes.length) = some printed := by
  rw [receiveListing]
  simp only [searchOver, h.text hnul hlen]
  cases beforeText listingOver (bytes ++ leftAt seen bytes.length) with
  | some before => simp
  | none =>
    split
    · simp
    · simp_all
    · simp [receiveListing]

end Rounds

/-! ### The marker -/

/-- The last byte of the marker is nowhere else in it. -/
private theorem notMem_dropLast_listingOver : (36 : UInt8) ∉ listingOver.dropLast := by decide

private theorem listingOver_eq : listingOver = listingOver.dropLast ++ [36] := by decide

/-- Bytes behind a text that miss the last byte of the marker do not complete it. -/
private theorem infix_of_append {u v : Text} (hv : (36 : UInt8) ∉ v) (h : listingOver <:+: u ++ v) :
    listingOver <:+: u := by
  obtain ⟨s, t, hst⟩ := h
  rcases List.append_eq_append_iff.mp hst with ⟨a, hu, -⟩ | ⟨a, hmarker, hv'⟩
  · exact ⟨s, a, hu.symm⟩
  · -- The part `a` of the marker lies in `v`, and it would end with the last byte.
    by_cases ha : a = []
    · subst ha
      rw [List.append_nil] at hmarker
      exact ⟨s, [], by rw [List.append_nil, hmarker]⟩
    · have hlast : a.getLast? = some 36 := by
        have hwhole : (s ++ listingOver).getLast? = some 36 := by
          rw [listingOver_eq, ← List.append_assoc, List.getLast?_concat]
        rw [hmarker, List.getLast?_append] at hwhole
        rcases List.getLast?_isSome.mpr ha |> Option.isSome_iff_exists.mp with ⟨b, hb⟩
        rw [hb] at hwhole ⊢
        exact hwhole
      exact absurd (hv' ▸ List.mem_append_left _ (List.mem_of_getLast? hlast)) hv

section Cuts

variable {text : Text} {chunks : List Text}

/-- How `recv` has to cut the listing with its marker. -/
structure WellCut (text : Text) (chunks : List Text) : Prop where
  noNul : 0 ∉ text
  quiet : Quiet [] chunks.dropLast
  whole : ∀ bytes, chunks.getLast? = some bytes → listingOver.length ≤ bytes.length

/-- What `strstr` may find behind a result comes from an earlier one. -/
private theorem leftAt_infix (seen : List Text) (j : Nat) :
    leftAt seen j = [] ∨ ∃ c ∈ seen, leftAt seen j <:+: c := by
  unfold leftAt
  split
  · next c hc => exact .inr ⟨c, List.mem_of_find?_eq_some hc, (List.drop_suffix j c).isInfix⟩
  · exact .inl rfl

/-- Results in front of the last one hold no marker. -/
private theorem not_infix_of_earlier {earlier : List Text} {last : Text}
    (hcut : earlier.flatten ++ last = text ++ listingOver) (hne : last ≠ [])
    (htext : ¬ listingOver <:+: text) {c : Text} (hc : c ∈ earlier) : ¬ listingOver <:+: c := by
  intro hmarker
  have hpart : c <:+: earlier.flatten := List.infix_of_mem_flatten hc
  have hpre : earlier.flatten <+: text ++ listingOver.dropLast := by
    have hshort : earlier.flatten.length ≤ (text ++ listingOver.dropLast).length := by
      have hpos := List.length_pos_iff.mpr hne
      have hlength := congrArg List.length hcut
      have hmarker : listingOver.length = 11 := by decide
      simp only [List.length_append, List.length_dropLast] at hlength ⊢
      omega
    apply List.prefix_of_prefix_length_le ⟨last, hcut⟩ _ hshort
    exact (List.prefix_append_right_inj text).mpr (List.dropLast_prefix _)
  exact htext (infix_of_append notMem_dropLast_listingOver
    ((hmarker.trans hpart).trans hpre.isInfix))

/-- A part of the marker is not completed by what earlier results have left. -/
private theorem not_infix_of_short {last behind : Text} (hlast : last <:+ listingOver)
    (hshort : last.length < listingOver.length) (hbehind : ¬ listingOver <:+: behind) :
    ¬ listingOver <:+: last ++ behind := by
  rintro ⟨s, t, hst⟩
  rw [List.append_assoc] at hst
  rcases List.append_eq_append_iff.mp hst with ⟨a, hs, ha⟩ | ⟨a, -, hb⟩
  · -- The marker starts inside `last`, with its end `a`.
    by_cases hnil : a = []
    · subst hnil
      exact hbehind ⟨[], t, by rw [List.nil_append, ha, List.nil_append]⟩
    · have hend : (36 : UInt8) ∈ a := by
        obtain ⟨p, hp⟩ : a <:+ listingOver := (List.suffix_append s a).trans (hs ▸ hlast)
        have hwhole : (p ++ a).getLast? = some 36 := by
          rw [hp]
          decide
        rcases List.getLast?_isSome.mpr hnil |> Option.isSome_iff_exists.mp with ⟨b, hb⟩
        rw [List.getLast?_append, hb] at hwhole
        cases hwhole
        exact List.mem_of_getLast? hb
      have hpre : a <+: listingOver.dropLast := by
        have hlength := congrArg List.length hs
        have hstart : a <+: listingOver :=
          List.prefix_of_prefix_length_le ⟨behind, ha.symm⟩ (List.prefix_append _ t)
            (by rw [List.length_append] at hlength; omega)
        apply List.prefix_of_prefix_length_le hstart (List.dropLast_prefix _)
        rw [List.length_append] at hlength
        rw [List.length_dropLast]
        omega
      exact notMem_dropLast_listingOver (hpre.subset hend)
  · exact hbehind ⟨a, t, by rw [hb, List.append_assoc]⟩

private theorem printed_noNul {buffer : CharArray bufferSize} {printed : Text} {unread : List Text}
    (h : receiveListing chunks buffer = some (printed, unread)) : 0 ∉ printed := by
  have hcstr : ∀ s : Text, 0 ∉ cstr s := by
    intro s hmem
    simpa using List.mem_takeWhile_imp hmem
  induction chunks generalizing buffer printed with
  | nil => cases h
  | cons c chunks ih =>
    rw [receiveListing] at h
    split at h
    · cases h
    · next before hfound =>
      cases h
      unfold searchOver at hfound
      split at hfound
      · next hbefore =>
        cases hfound
        exact fun hmem ↦ hcstr _ ((prefix_of_beforeText hbefore).subset hmem)
      · split at hfound <;> cases hfound
    · split at h
      · rcases Option.map_eq_some_iff.mp h with ⟨⟨later, rest⟩, hlater, heq⟩
        cases heq
        rw [List.mem_append, not_or]
        exact ⟨hcstr _, ih hlater⟩
      · cases h

/-- A loop that ends with the last result has passed the others quietly and printed them. -/
private theorem receiveListing_concat {earlier : List Text} {last printed : Text}
    (hnul : ∀ c ∈ earlier ++ [last], 0 ∉ c) (hlen : ∀ c ∈ earlier ++ [last], c.length ≤ bufferSize) :
    receiveListing (earlier ++ [last]) (CharArray.zeros bufferSize) = some (printed, []) ↔
      Quiet [] earlier ∧ ∃ later, printed = earlier.flatten ++ later ∧
        beforeText listingOver (last ++ leftAt earlier.reverse last.length) = some later := by
  have hearlier : ∀ c ∈ earlier, 0 ∉ c := fun c hc ↦ hnul c (List.mem_append_left _ hc)
  have hlast : Quiet [] earlier → ∀ later,
      (receiveListing [last] (earlier.foldl keep (CharArray.zeros bufferSize)) = some (later, []) ↔
        beforeText listingOver (last ++ leftAt earlier.reverse last.length) = some later) := by
    intro hquiet later
    have htracks := tracks_foldl tracks_zeros hearlier hquiet
    rw [List.append_nil] at htracks
    exact receiveListing_last htracks (hnul last (by simp)) (hlen last (by simp))
  rw [receiveListing_append tracks_zeros hearlier
    (fun c hc ↦ hlen c (List.mem_append_left _ hc)) (by simp)]
  constructor
  · rintro ⟨hquiet, later, hprinted, hlater⟩
    exact ⟨hquiet, later, hprinted, (hlast hquiet later).mp hlater⟩
  · rintro ⟨hquiet, later, hprinted, hlater⟩
    exact ⟨hquiet, later, hprinted, (hlast hquiet later).mpr hlater⟩

/-- A listing that is cut well is printed whole. -/
theorem receiveListing_of_wellCut (hcut : chunks.flatten = text ++ listingOver)
    (hsize : ∀ c ∈ chunks, c.length ≤ bufferSize) (htext : ¬ listingOver <:+: text)
    (hwell : WellCut text chunks) :
    receiveListing chunks (CharArray.zeros bufferSize) = some (text, []) := by
  have hchunks : ∀ c ∈ chunks, 0 ∉ c := by
    intro c hc hmem
    have hin := (List.infix_of_mem_flatten hc).subset hmem
    rw [hcut, List.mem_append] at hin
    exact hin.elim hwell.noNul (by decide)
  obtain rfl | ⟨earlier, last, rfl⟩ := List.eq_nil_or_concat chunks
  · exact absurd (congrArg List.length hcut) (by simp [listingOver, lit])
  rw [List.concat_eq_append] at *
  rw [List.flatten_append, List.flatten_singleton] at hcut
  obtain ⟨u, rfl⟩ : listingOver <:+ last :=
    List.suffix_of_suffix_length_le (List.suffix_append _ _) ⟨_, hcut⟩ (hwell.whole last (by simp))
  have hprinted : text = earlier.flatten ++ u := by
    rw [← List.append_assoc] at hcut
    exact (List.append_cancel_right hcut).symm
  refine (receiveListing_concat hchunks hsize).mpr ⟨by simpa using hwell.quiet, u, hprinted, ?_⟩
  apply beforeText_append (by decide)
  intro hmarker
  have hpart := infix_of_append notMem_dropLast_listingOver hmarker
  exact htext (hpart.trans (hprinted ▸ (List.suffix_append _ _).isInfix))

/-- The loop ends behind the marker, with the whole listing printed, exactly if the results are
cut well. -/
theorem listing_ends_iff (hcut : chunks.flatten = text ++ listingOver)
    (hsize : ∀ c ∈ chunks, c ≠ [] ∧ c.length ≤ bufferSize) (htext : ¬ listingOver <:+: text) :
    receiveListing chunks (CharArray.zeros bufferSize) = some (text, []) ↔ WellCut text chunks := by
  by_cases hnul : 0 ∈ text
  · constructor
    · exact fun h ↦ absurd hnul (printed_noNul h)
    · exact fun h ↦ absurd hnul h.noNul
  obtain rfl | ⟨earlier, last, rfl⟩ := List.eq_nil_or_concat chunks
  · exact absurd (congrArg List.length hcut) (by simp [listingOver, lit])
  rw [List.concat_eq_append] at *
  have hne : last ≠ [] := (hsize last (by simp)).1
  have hcut' : earlier.flatten ++ last = text ++ listingOver := by simpa using hcut
  have hchunks : ∀ c ∈ earlier ++ [last], 0 ∉ c := by
    intro c hc hmem
    have hin := (List.infix_of_mem_flatten hc).subset hmem
    rw [hcut, List.mem_append] at hin
    rcases hin with hin | hin
    · exact hnul hin
    · exact absurd hin (by decide)
  have hleft : ¬ listingOver <:+: leftAt earlier.reverse last.length := by
    rcases leftAt_infix earlier.reverse last.length with hnil | ⟨c, hc, hpart⟩
    · rw [hnil]
      decide
    · exact fun h ↦ not_infix_of_earlier hcut' hne htext (List.mem_reverse.mp hc) (h.trans hpart)
  rw [receiveListing_concat hchunks (fun c hc ↦ (hsize c hc).2)]
  constructor
  · rintro ⟨hquiet, later, -, hlater⟩
    refine ⟨hnul, by simpa using hquiet, ?_⟩
    intro bytes hbytes
    have heq : last = bytes := by simpa using hbytes
    subst heq
    by_contra hshort
    have hsuffix : last <:+ listingOver :=
      List.suffix_of_suffix_length_le ⟨earlier.flatten, hcut'⟩ (List.suffix_append _ _) (by omega)
    rw [beforeText_eq_none.mpr (not_infix_of_short hsuffix (by omega) hleft)] at hlater
    cases hlater
  · intro hwell
    have hquiet : Quiet [] earlier := by simpa using hwell.quiet
    have hwhole : listingOver.length ≤ last.length := hwell.whole last (by simp)
    obtain ⟨u, rfl⟩ : listingOver <:+ last :=
      List.suffix_of_suffix_length_le (List.suffix_append _ _) ⟨earlier.flatten, hcut'⟩ hwhole
    have htextEq : text = earlier.flatten ++ u := by
      rw [← List.append_assoc] at hcut'
      exact (List.append_cancel_right hcut').symm
    refine ⟨hquiet, u, htextEq, ?_⟩
    apply beforeText_append (by decide)
    intro hmarker
    have hpart := infix_of_append notMem_dropLast_listingOver hmarker
    exact htext (hpart.trans (htextEq ▸ (List.suffix_append _ _).isInfix))

end Cuts

theorem listing_ends_in_two :
    receiveListing [lit "s\n", listingOver] (CharArray.zeros bufferSize) =
      some (lit "s\n", []) := by
  have hwell : WellCut (lit "s\n") [lit "s\n", listingOver] :=
    ⟨by decide, ⟨by decide, by decide, trivial⟩, by simp⟩
  exact (listing_ends_iff (by decide) (by decide) (by decide)).mpr hwell

/-- A marker in two pieces is not seen, and the loop waits for ever. -/
theorem cut_marker_is_missed :
    ¬ ∀ (text : Text) (chunks : List Text), chunks.flatten = text ++ listingOver →
      (∀ c ∈ chunks, c ≠ [] ∧ c.length ≤ bufferSize) → ¬ listingOver <:+: text →
      receiveListing chunks (CharArray.zeros bufferSize) = some (text, []) := by
  intro hall
  have hrun := hall (lit "s\n") ([lit "s\n@#!@"] ++ [lit "#over@$"]) (by decide) (by decide)
    (by decide)
  rcases (receiveListing_concat (by decide) (by decide)).mp hrun with ⟨-, later, -, hlater⟩
  have hnone : beforeText listingOver (lit "#over@$" ++
      leftAt [lit "s\n@#!@"].reverse (lit "#over@$").length) = none := by decide
  rw [hnone] at hlater
  cases hlater

end NetworkFileSystem.Client
