import NetworkFileSystem.Naming.Index

/-!
# Indexes cut anywhere

`naming_server.c:56–103`. TCP may cut the byte stream of an index into segments at any
place. The unfinished line of one segment and the next segment share one buffer of
`MAX_PATH_SIZE` bytes, and `strncat` drops what does not fit. So the lines are put together
again if and only if nothing is ever dropped.
-/

namespace NetworkFileSystem.Naming

open Base Protocol Trie

/-- The unfinished line and the next segment always fit into the buffer. -/
def Fits : List Text → Text → Prop
  | [], _ => True
  | segment :: rest, pending =>
    pending.length + segment.length < maxPathSize ∧ Fits rest (leftover (pending ++ segment))

instance decidableFits : (segments : List Text) → (pending : Text) →
    Decidable (Fits segments pending)
  | [], _ => isTrue trivial
  | segment :: rest, pending =>
    @instDecidableAnd _ _ _ (decidableFits rest (leftover (pending ++ segment)))

/-- The bytes of an index: its lines and the line with the end marker. -/
def indexStream (lines : List Text) : Text := (lines ++ [finishedIndexing]).flatMap (· ++ [newline])

/-- A line of an index: a C string that fits the buffer with its newline. -/
structure PathLine (line : Text) : Prop where
  ne_nil : line ≠ []
  noNewline : newline ∉ line
  noNul : 0 ∉ line
  short : line.length ≤ maxPathSize - 2
  noMarker : containsText finishedIndexing line = false

instance (line : Text) : Decidable (PathLine line) :=
  decidable_of_iff (line ≠ [] ∧ newline ∉ line ∧ 0 ∉ line ∧ line.length ≤ maxPathSize - 2 ∧
      containsText finishedIndexing line = false)
    ⟨fun h ↦ ⟨h.1, h.2.1, h.2.2.1, h.2.2.2.1, h.2.2.2.2⟩,
      fun h ↦ ⟨h.ne_nil, h.noNewline, h.noNul, h.short, h.noMarker⟩⟩

/-! ### Lines of a text -/

private theorem lines_of_notMem {u : Text} (hu : newline ∉ u) :
    completeLines u = [] ∧ leftover u = u := by
  rw [completeLines, leftover, List.splitOn_eq_singleton hu]
  exact ⟨rfl, rfl⟩

private theorem lines_append_cons {u : Text} (hu : newline ∉ u) (v : Text) :
    completeLines (u ++ newline :: v) = u :: completeLines v ∧
      leftover (u ++ newline :: v) = leftover v := by
  have hne : v.splitOn newline ≠ [] := List.splitOn_ne_nil newline v
  rw [completeLines, leftover, List.splitOn_append_cons_self, List.splitOn_eq_singleton hu,
    List.singleton_append]
  constructor
  · rw [List.dropLast_cons_of_ne_nil hne]
    rfl
  · obtain ⟨x, xs, hx⟩ := List.exists_cons_of_ne_nil hne
    rw [leftover, hx, List.getLast?_cons_cons]

/-- The lines of a text go on with those of what is appended to it. -/
theorem lines_append (a b : Text) :
    completeLines (a ++ b) = completeLines a ++ completeLines (leftover a ++ b) ∧
      leftover (a ++ b) = leftover (leftover a ++ b) := by
  induction hn : a.length using Nat.strongRecOn generalizing a with
  | ind n ih =>
    by_cases hmem : newline ∈ a
    · obtain ⟨u, v, rfl, hu⟩ := List.eq_append_cons_of_mem hmem
      obtain ⟨hc, hl⟩ := ih v.length (by simp [← hn]; omega) v rfl
      obtain ⟨hc₁, hl₁⟩ := lines_append_cons hu v
      obtain ⟨hc₂, hl₂⟩ := lines_append_cons hu (v ++ b)
      rw [List.append_assoc, List.cons_append, hc₁, hl₁, hc₂, hl₂, hc, hl]
      exact ⟨rfl, rfl⟩
    · obtain ⟨hc, hl⟩ := lines_of_notMem hmem
      rw [hc, hl]
      exact ⟨rfl, rfl⟩

theorem newline_notMem_leftover (a : Text) : newline ∉ leftover a := by
  induction hn : a.length using Nat.strongRecOn generalizing a with
  | ind n ih =>
    by_cases hmem : newline ∈ a
    · obtain ⟨u, v, rfl, hu⟩ := List.eq_append_cons_of_mem hmem
      rw [(lines_append_cons hu v).2]
      exact ih v.length (by simp [← hn]; omega) v rfl
    · rwa [(lines_of_notMem hmem).2]

theorem completeLines_stream {ls : List Text} (h : ∀ l ∈ ls, newline ∉ l) :
    completeLines (ls.flatMap (· ++ [newline])) = ls := by
  induction ls with
  | nil => exact (lines_of_notMem (by simp)).1
  | cons l ls ih =>
    rw [List.flatMap_cons, List.append_assoc, List.singleton_append,
      (lines_append_cons (h l (by simp)) _).1, ih (fun l' hl' ↦ h l' (by simp [hl']))]

/-- How many bytes lines take with their newlines. -/
def weight (ls : List Text) : Nat := (ls.map (fun l ↦ l.length + 1)).sum

private theorem weight_cons (l : Text) (ls : List Text) :
    weight (l :: ls) = l.length + 1 + weight ls := by
  simp [weight]

private theorem weight_append (ls ls' : List Text) :
    weight (ls ++ ls') = weight ls + weight ls' := by
  simp [weight]

theorem length_stream (ls : List Text) : (ls.flatMap (· ++ [newline])).length = weight ls := by
  simp [weight, List.length_flatMap]

theorem weight_lines (a : Text) : weight (completeLines a) + (leftover a).length = a.length := by
  induction hn : a.length using Nat.strongRecOn generalizing a with
  | ind n ih =>
    by_cases hmem : newline ∈ a
    · obtain ⟨u, v, rfl, hu⟩ := List.eq_append_cons_of_mem hmem
      obtain ⟨hc, hl⟩ := lines_append_cons hu v
      have hv := ih v.length (by simp [← hn]; omega) v rfl
      rw [hc, hl, weight_cons]
      simp at hn
      omega
    · obtain ⟨hc, hl⟩ := lines_of_notMem hmem
      rw [hc, hl]
      simpa [weight] using hn

theorem weight_le {ls ls' : List Text} (h : ls.Sublist ls') : weight ls ≤ weight ls' := by
  induction h with
  | slnil => exact Nat.le_refl _
  | cons l _ ih =>
    rw [weight_cons]
    omega
  | cons_cons l _ ih =>
    rw [weight_cons, weight_cons]
    omega

/-! ### Reading -/

private theorem takeWhile_append_of_any {ls : List Text} (h : ls.any endsIndex = true)
    (ls' : List Text) :
    (ls ++ ls').takeWhile (fun l ↦ !endsIndex l) = ls.takeWhile (fun l ↦ !endsIndex l) := by
  induction ls with
  | nil => simp at h
  | cons l ls ih =>
    cases hl : endsIndex l with
    | true => simp [hl]
    | false =>
      rw [List.any_cons, hl, Bool.false_or] at h
      simp [hl, ih h]

private theorem takeWhile_of_any_eq_false {ls : List Text} (h : ls.any endsIndex = false) :
    ls.takeWhile (fun l ↦ !endsIndex l) = ls := by
  rw [List.takeWhile_eq_self_iff]
  intro l hl
  simpa using List.any_eq_false.mp h l hl

/-- If nothing is dropped, the segments are read like the whole stream. -/
theorem indexed_of_fits {segments : List Text} {pending : Text} (hfits : Fits segments pending)
    (hnul : 0 ∉ segments.flatten) (hpending : newline ∉ pending) :
    indexedLines segments pending =
        ((completeLines (pending ++ segments.flatten)).takeWhile (fun l ↦ !endsIndex l)).filter
          (· ≠ []) ∧
      indexEnds segments pending = (completeLines (pending ++ segments.flatten)).any endsIndex := by
  induction segments generalizing pending with
  | nil =>
    rw [List.flatten_nil, List.append_nil, (lines_of_notMem hpending).1]
    exact ⟨rfl, rfl⟩
  | cons segment rest ih =>
    obtain ⟨hlen, hrest⟩ := hfits
    simp only [List.flatten_cons, List.mem_append, not_or] at hnul
    have hbuffer : pending ++ (cstr segment).take (maxPathSize - pending.length - 1) =
        pending ++ segment := by
      rw [cstr_eq_self hnul.1, List.take_of_length_le (by omega)]
    obtain ⟨hlines, hends⟩ := ih hrest hnul.2 (newline_notMem_leftover _)
    rw [List.flatten_cons, ← List.append_assoc, (lines_append _ _).1]
    simp only [indexedLines, indexEnds, hbuffer, hlines, hends, List.any_append]
    refine ⟨?_, trivial⟩
    cases hany : (completeLines (pending ++ segment)).any endsIndex with
    | true => rw [takeWhile_append_of_any hany, if_pos rfl, List.append_nil]
    | false =>
      rw [List.takeWhile_append_of_pos (fun l hl ↦ by simpa using List.any_eq_false.mp hany l hl),
        takeWhile_of_any_eq_false hany, List.filter_append]
      rfl

private theorem weight_marker {ls : List Text} (h : ls.any endsIndex = true) :
    weight (ls.takeWhile (fun l ↦ !endsIndex l)) + (finishedIndexing.length + 1) ≤ weight ls := by
  induction ls with
  | nil => simp at h
  | cons l ls ih =>
    cases hl : endsIndex l with
    | true =>
      have hlen := (containsText_iff.mp hl).length_le
      rw [List.takeWhile_cons_of_neg (by simp [hl]), weight_cons]
      simp only [weight, List.map_nil, List.sum_nil]
      omega
    | false =>
      rw [List.any_cons, hl, Bool.false_or] at h
      rw [List.takeWhile_cons_of_pos (by simp [hl]), weight_cons, weight_cons]
      have hrest := ih h
      omega

/-- What one receive adds to the buffer. -/
private theorem length_buffer_le (pending segment : Text) :
    (pending ++ (cstr segment).take (maxPathSize - pending.length - 1)).length ≤
      pending.length + segment.length := by
  have hcstr : (cstr segment).length ≤ segment.length := (List.takeWhile_prefix _).length_le
  rw [List.length_append, List.length_take]
  omega

/-- The lines read up to the end marker, with the marker, are bytes that were received. -/
theorem weight_of_indexEnds {segments : List Text} {pending : Text}
    (h : indexEnds segments pending = true) :
    weight (indexedLines segments pending) + (finishedIndexing.length + 1) ≤
      pending.length + segments.flatten.length := by
  induction segments generalizing pending with
  | nil => cases h
  | cons segment rest ih =>
    have hbuffer := length_buffer_le pending segment
    simp only [indexEnds, indexedLines] at h ⊢
    generalize pending ++ (cstr segment).take (maxPathSize - pending.length - 1) = buffer at *
    have hlines := weight_lines buffer
    rw [weight_append, List.flatten_cons, List.length_append]
    generalize hfull : List.filter _ _ = full
    have hfilter := weight_le (hfull ▸ List.filter_sublist)
    cases hany : (completeLines buffer).any endsIndex with
    | true =>
      have hmarker := weight_marker hany
      have hnil : weight [] = 0 := rfl
      rw [if_pos rfl, hnil]
      omega
    | false =>
      rw [hany, Bool.false_or] at h
      have hrest := ih h
      rw [takeWhile_of_any_eq_false hany] at hfilter
      rw [if_neg (by decide)]
      omega

/-- If the lines read and the end marker are all that was sent, nothing has been dropped. -/
theorem fits_of_weight {segments : List Text} {pending : Text}
    (hne : ∀ c ∈ segments, c ≠ []) (hpending : pending.length < maxPathSize)
    (h : indexEnds segments pending = true)
    (hall : pending.length + segments.flatten.length ≤
      weight (indexedLines segments pending) + (finishedIndexing.length + 1)) :
    Fits segments pending := by
  induction segments generalizing pending with
  | nil => cases h
  | cons segment rest ih =>
    have hbuffer := length_buffer_le pending segment
    simp only [indexEnds, indexedLines] at h hall
    have hmax : (pending ++ (cstr segment).take (maxPathSize - pending.length - 1)).length <
        maxPathSize := by
      rw [List.length_append, List.length_take]
      omega
    have hsegment : (cstr segment).take (maxPathSize - pending.length - 1) <+: segment :=
      (List.take_prefix _ _).trans (List.takeWhile_prefix _)
    generalize hkept : (cstr segment).take (maxPathSize - pending.length - 1) = kept at *
    have hlines := weight_lines (pending ++ kept)
    rw [weight_append, List.flatten_cons, List.length_append] at hall
    generalize hfull : List.filter _ _ = full at hall
    have hfilter := weight_le (hfull ▸ List.filter_sublist)
    have hwhole : pending.length + segment.length ≤ (pending ++ kept).length →
        kept = segment := by
      intro hle
      rw [List.length_append] at hle
      exact hsegment.eq_of_length_le (by omega)
    cases hany : (completeLines (pending ++ kept)).any endsIndex with
    | true =>
      have hmarker := weight_marker hany
      have hnil : weight [] = 0 := rfl
      rw [hany, if_pos rfl, hnil] at hall
      obtain rfl := hwhole (by omega)
      have hrest : rest = [] := by
        rw [List.eq_nil_iff_forall_not_mem]
        intro c hc
        have hlen : c.length ≤ rest.flatten.length := (List.sublist_flatten_of_mem hc).length_le
        have hpos := List.length_pos_iff.mpr (hne c (List.mem_cons_of_mem _ hc))
        omega
      subst hrest
      exact ⟨by rwa [List.length_append] at hmax, trivial⟩
    | false =>
      rw [hany, Bool.false_or] at h
      rw [hany, if_neg (by decide)] at hall
      rw [takeWhile_of_any_eq_false hany] at hfilter
      have hrest := weight_of_indexEnds h
      obtain rfl := hwhole (by omega)
      refine ⟨by rwa [List.length_append] at hmax,
        ih (fun c hc ↦ hne c (List.mem_cons_of_mem _ hc)) (by omega) h (by omega)⟩

/-- Insertions go through as long as the components of each path fit `path_arr`. -/
theorem addPaths_eq_some_iff {paths : List Text} {root : TrieNode} :
    (∃ root', addPaths paths root = some root') ↔
      ∀ p ∈ paths, (components p).length < maxPath := by
  induction paths generalizing root with
  | nil => simp [addPaths]
  | cons p paths ih =>
    rw [addPaths_cons, addPathToTrie, parsePath]
    by_cases hp : (components p).length < maxPath
    · simp [hp, ih]
    · simp [hp]

/-! ### The result -/

/-- `indexHelper` comes to the end marker and has inserted exactly these lines, in this order. -/
def Parses (segments lines : List Text) (root : TrieNode) : Prop :=
  (∃ root', indexHelper segments [] root = some (root', true)) ∧ indexedLines segments [] = lines

private theorem completeLines_indexStream {lines : List Text} (h : ∀ l ∈ lines, newline ∉ l) :
    completeLines (indexStream lines) = lines ++ [finishedIndexing] := by
  refine completeLines_stream (fun l hl ↦ ?_)
  obtain hl | hl := List.mem_append.mp hl
  · exact h l hl
  · rw [List.mem_singleton.mp hl]
    decide

private theorem nul_notMem_indexStream {lines : List Text} (h : ∀ l ∈ lines, PathLine l) :
    0 ∉ indexStream lines := by
  rw [indexStream, List.mem_flatMap]
  rintro ⟨l, hl, hnul⟩
  have hline : 0 ∈ l := by simpa [newline] using hnul
  obtain hl | hl := List.mem_append.mp hl
  · exact (h l hl).noNul hline
  · rw [List.mem_singleton.mp hl] at hline
    exact absurd hline (by decide)

/-- Segments that fit yield the lines of the stream. -/
theorem indexed_of_stream {lines segments : List Text} (hlines : ∀ l ∈ lines, PathLine l)
    (hcut : segments.flatten = indexStream lines) (hfits : Fits segments []) :
    indexedLines segments [] = lines ∧ indexEnds segments [] = true := by
  obtain ⟨hindexed, hends⟩ :=
    indexed_of_fits hfits (hcut ▸ nul_notMem_indexStream hlines) (by simp)
  rw [List.nil_append, hcut, completeLines_indexStream (fun l hl ↦ (hlines l hl).noNewline)] at *
  have hnone : lines.any endsIndex = false :=
    List.any_eq_false.mpr (fun l hl ↦ by simpa [endsIndex] using (hlines l hl).noMarker)
  have hmarker : endsIndex finishedIndexing = true := by decide
  constructor
  · rw [hindexed, List.takeWhile_append_of_pos
      (fun l hl ↦ by simpa using List.any_eq_false.mp hnone l hl),
      List.takeWhile_cons_of_neg (by simp [hmarker]), List.append_nil, List.filter_eq_self]
    intro l hl
    simpa using (hlines l hl).ne_nil
  · rw [hends, List.any_append, List.any_cons, hmarker]
    simp

private theorem fits_of_indexed {lines segments : List Text}
    (hcut : segments.flatten = indexStream lines) (hne : ∀ c ∈ segments, c ≠ [])
    (hindexed : indexedLines segments [] = lines) (hends : indexEnds segments [] = true) :
    Fits segments [] := by
  refine fits_of_weight hne (by decide) hends ?_
  rw [hcut, hindexed, indexStream, length_stream, weight_append, weight_cons]
  simp [weight]

/-- For every index and every way of cutting it: the naming server reads exactly its lines if and
only if the unfinished line and the next segment always fit the buffer, and no line has more
components than `path_arr` holds. -/
theorem index_parsed_iff_fits {lines segments : List Text} (root : TrieNode)
    (hlines : ∀ l ∈ lines, PathLine l) (hcut : segments.flatten = indexStream lines)
    (hsegments : ∀ c ∈ segments, c ≠ [] ∧ c.length ≤ maxPathSize) :
    Parses segments lines root ↔
      Fits segments [] ∧ ∀ l ∈ lines, (components l).length < maxPath := by
  rw [Parses, indexHelper_eq_map]
  constructor
  · rintro ⟨⟨root', hroot⟩, hindexed⟩
    obtain ⟨r, hadd, hr⟩ := Option.map_eq_some_iff.mp hroot
    have hends : indexEnds segments [] = true := (Prod.mk.inj hr).2
    rw [hindexed] at hadd
    exact ⟨fits_of_indexed hcut (fun c hc ↦ (hsegments c hc).1) hindexed hends,
      addPaths_eq_some_iff.mp ⟨r, hadd⟩⟩
  · rintro ⟨hfits, hshort⟩
    obtain ⟨hindexed, hends⟩ := indexed_of_stream hlines hcut hfits
    obtain ⟨root', hroot⟩ := addPaths_eq_some_iff.mpr hshort
    refine ⟨⟨root', ?_⟩, hindexed⟩
    rw [hindexed, hends, hroot]
    rfl

/-- An index of two lines, cut inside the second one and inside the end marker. -/
theorem index_parsed_of_three_segments :
    Parses [lit "./s\n./s", lit "/a\n@!-Finish", lit "ed Indexing-!@\n"] [lit "./s", lit "./s/a"]
      (createNode (lit ".")) := by
  refine (index_parsed_iff_fits _ ?_ (by decide) (by decide)).mpr ?_
  · intro l hl
    obtain rfl | rfl : l = lit "./s" ∨ l = lit "./s/a" := by simpa using hl
    · exact ⟨by decide, by decide, by decide, by decide, by decide⟩
    · exact ⟨by decide, by decide, by decide, by decide, by decide⟩
  · exact ⟨⟨by decide, by decide, by decide, trivial⟩, by decide⟩

private theorem pathLine_replicate {n : Nat} (hn : n ≠ 0) (hshort : n ≤ maxPathSize - 2) :
    PathLine (List.replicate n 97) := by
  have hbyte : ∀ {b : UInt8}, b ∈ List.replicate n 97 → b = 97 := List.eq_of_mem_replicate
  constructor
  · rwa [Ne, List.replicate_eq_nil_iff]
  · exact fun h ↦ absurd (hbyte h) (by decide)
  · exact fun h ↦ absurd (hbyte h) (by decide)
  · rwa [List.length_replicate]
  · rw [Bool.eq_false_iff, Ne, containsText_iff]
    intro h
    exact absurd (hbyte (h.subset (by decide : (64 : UInt8) ∈ finishedIndexing))) (by decide)

/-- Two lines of 1500 bytes, cut behind the first one: what follows does not fit behind it. -/
theorem overlong_segments_lose_lines :
    ¬ ∀ (lines segments : List Text) (root : TrieNode), (∀ l ∈ lines, PathLine l) →
      segments.flatten = indexStream lines →
      (∀ c ∈ segments, c ≠ [] ∧ c.length ≤ maxPathSize) → Parses segments lines root := by
  intro hall
  obtain ⟨l, hl, hlen⟩ : ∃ l, PathLine l ∧ l.length = 1500 :=
    ⟨_, pathLine_replicate (by decide) (by decide), List.length_replicate⟩
  have hmarker : finishedIndexing.length = 23 := by decide
  have hcut : [l, newline :: l ++ newline :: finishedIndexing ++ [newline]].flatten =
      indexStream [l, l] := by
    simp [indexStream]
  have hsegments : ∀ c ∈ [l, newline :: l ++ newline :: finishedIndexing ++ [newline]],
      c ≠ [] ∧ c.length ≤ maxPathSize := by
    intro c hc
    obtain rfl | rfl := List.mem_pair.mp hc
    · exact ⟨hl.ne_nil, by simp [hlen, maxPathSize]⟩
    · exact ⟨by simp, by simp [hlen, hmarker, maxPathSize]⟩
  obtain ⟨⟨root', hroot⟩, hindexed⟩ := hall [l, l] _ (createNode (lit "."))
    (by simpa using hl) hcut hsegments
  rw [indexHelper_eq_map] at hroot
  obtain ⟨r, -, hr⟩ := Option.map_eq_some_iff.mp hroot
  obtain ⟨-, hsecond, -⟩ :=
    fits_of_indexed hcut (fun c hc ↦ (hsegments c hc).1) hindexed (Prod.mk.inj hr).2
  rw [List.nil_append, (lines_of_notMem hl.noNewline).2] at hsecond
  simp [hlen, hmarker, maxPathSize] at hsecond

end NetworkFileSystem.Naming
