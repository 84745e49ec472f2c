import NetworkFileSystem.Protocol.Message
import NetworkFileSystem.Trie.Node

/-!
# Reading an index

`naming_server.c:56–103`. The index of a server arrives as a byte stream cut into
segments anywhere. Complete lines are inserted into the trie until one carries the end
marker; an incomplete line waits in a buffer for the next segment.
-/

namespace NetworkFileSystem.Naming

open Base Protocol Trie

/-- The byte that ends a line. -/
def newline : UInt8 := 10

/-- The complete lines of the buffer. -/
def completeLines (buffer : Text) : List Text := (buffer.splitOn newline).dropLast

/-- What follows the last newline of the buffer. -/
def leftover (buffer : Text) : Text := (buffer.splitOn newline).getLast?.getD []

/-- Whether a line carries the end marker. -/
def endsIndex (line : Text) : Bool := containsText finishedIndexing line

/-- The loop at `naming_server.c:69–89` over the complete lines; the flag is
`finished_indexing`. -/
def addLines : List Text → TrieNode → Option (TrieNode × Bool)
  | [], root => some (root, false)
  | current :: rest, root =>
    if endsIndex current then some (root, true)
    else if current = [] then addLines rest root
    else (addPathToTrie current root).bind (addLines rest)

/-- `naming_server.c:56–103` over the successive results of `recv_good`, from the buffered
text `tempBuffer`. The flag says whether the end marker was seen; without it the loop ended
because a receive failed. -/
def indexHelper : List Text → Text → TrieNode → Option (TrieNode × Bool)
  | [], _, root => some (root, false)
  | path :: rest, tempBuffer, root =>
    let buffer := tempBuffer ++ (cstr path).take (maxPathSize - tempBuffer.length - 1)
    (addLines (completeLines buffer) root).bind (fun (root, finished) ↦
      if finished then some (root, true) else indexHelper rest (leftover buffer) root)

/-- The lines that `indexHelper` inserts, in order. -/
def indexedLines : List Text → Text → List Text
  | [], _ => []
  | path :: rest, tempBuffer =>
    let buffer := tempBuffer ++ (cstr path).take (maxPathSize - tempBuffer.length - 1)
    let lines := completeLines buffer
    (lines.takeWhile (fun l ↦ !endsIndex l)).filter (· ≠ []) ++
      if lines.any endsIndex then [] else indexedLines rest (leftover buffer)

/-- Whether `indexHelper` has seen the end marker behind these segments. -/
def indexEnds : List Text → Text → Bool
  | [], _ => false
  | path :: rest, tempBuffer =>
    let buffer := tempBuffer ++ (cstr path).take (maxPathSize - tempBuffer.length - 1)
    (completeLines buffer).any endsIndex || indexEnds rest (leftover buffer)

/-- Insert paths one after the other. -/
def addPaths (paths : List Text) (root : TrieNode) : Option TrieNode :=
  paths.foldlM (fun n p ↦ addPathToTrie p n) root

theorem addPaths_append (ps qs : List Text) (root : TrieNode) :
    addPaths (ps ++ qs) root = (addPaths ps root).bind (addPaths qs) :=
  List.foldlM_append

theorem addPaths_cons (p : Text) (ps : List Text) (root : TrieNode) :
    addPaths (p :: ps) root = (addPathToTrie p root).bind (addPaths ps) := rfl

private theorem addLines_eq (ls : List Text) (root : TrieNode) :
    addLines ls root =
      (addPaths ((ls.takeWhile (fun l ↦ !endsIndex l)).filter (· ≠ [])) root).map
        (·, ls.any endsIndex) := by
  induction ls generalizing root with
  | nil => rfl
  | cons l ls ih =>
    unfold addLines
    by_cases hend : endsIndex l = true
    · simp [hend, addPaths]
    · rw [if_neg hend, List.takeWhile_cons_of_pos (by simpa using hend), List.any_cons,
        Bool.eq_false_iff.mpr hend, Bool.false_or]
      by_cases hl : l = []
      · rw [if_pos hl, List.filter_cons_of_neg (by simp [hl])]
        exact ih root
      · rw [if_neg hl, List.filter_cons_of_pos (by simpa using hl), addPaths_cons]
        cases addPathToTrie l root with
        | none => rfl
        | some n => exact ih n

/-- Reading an index inserts its lines, and says whether the end marker was seen. -/
theorem indexHelper_eq_map (segments : List Text) (buffer : Text) (root : TrieNode) :
    indexHelper segments buffer root =
      (addPaths (indexedLines segments buffer) root).map (·, indexEnds segments buffer) := by
  induction segments generalizing buffer root with
  | nil => rfl
  | cons s rest ih =>
    simp only [indexHelper, indexedLines, indexEnds, addLines_eq, addPaths_append]
    generalize hls : completeLines _ = ls
    cases addPaths ((ls.takeWhile (fun l ↦ !endsIndex l)).filter (· ≠ [])) root with
    | none => rfl
    | some n =>
      simp only [Option.map_some, Option.bind_some]
      cases ls.any endsIndex with
      | true => rfl
      | false => simpa using ih _ n

/-- Reading an index inserts its lines. -/
theorem indexHelper_eq (segments : List Text) (buffer : Text) (root : TrieNode) :
    (indexHelper segments buffer root).map Prod.fst = addPaths (indexedLines segments buffer) root := by
  rw [indexHelper_eq_map, Option.map_map]
  exact Option.map_id'

/-! ### Indexes that arrive line by line -/

/-- A path that a line of the index can carry: a C string that fits the buffer with its
newline and does not contain the end marker. -/
def Indexable (p : Text) : Prop :=
  containsText finishedIndexing p = false ∧ p.length + 1 < maxPathSize ∧ 0 ∉ p

theorem indexLine_eq {p : Text} (h : p.length + 1 < maxPathSize) :
    indexLine p = p ++ [newline] := by
  unfold indexLine clip
  rw [List.take_of_length_le]
  · rfl
  · simp [lit]
    omega

/-- The lines that are complete behind the message for a path are its pieces. -/
private theorem buffer_indexLine {p : Text} (h : Indexable p) :
    (cstr (indexLine p)).take (maxPathSize - 1) = p ++ [newline] := by
  have hcstr : cstr (p ++ [newline]) = p ++ [newline] := by
    apply cstr_eq_self
    simp [h.2.2, newline]
  rw [indexLine_eq h.2.1, hcstr, List.take_of_length_le]
  have hlen := h.2.1
  simp
  omega

private theorem splitOn_line (p : Text) : (p ++ [newline]).splitOn newline = p.splitOn newline ++ [[]] := by
  rw [List.splitOn_append_cons_self]
  rfl

theorem completeLines_line (p : Text) : completeLines (p ++ [newline]) = p.splitOn newline := by
  rw [completeLines, splitOn_line, List.dropLast_concat]

theorem leftover_line (p : Text) : leftover (p ++ [newline]) = [] := by
  rw [leftover, splitOn_line, List.getLast?_concat]
  rfl

/-- Lines of indexable paths do not end the index. -/
theorem indexEnds_lines {paths : List Text} (h : ∀ p ∈ paths, Indexable p) :
    indexEnds (paths.map indexLine) [] = false := by
  induction paths with
  | nil => rfl
  | cons p paths ih =>
    have hp := h p (by simp)
    have hno : (p.splitOn newline).any endsIndex = false := by
      rw [List.any_eq_false]
      intro l hl hend
      have hin := (containsText_iff.mp hend).trans (infix_of_mem_splitOn hl)
      exact absurd (hp.1.symm.trans (containsText_iff.mpr hin)) (by decide)
    simp only [List.map_cons, indexEnds, List.length_nil, Nat.sub_zero, List.nil_append,
      buffer_indexLine hp, completeLines_line, leftover_line, hno, Bool.false_or]
    exact ih (fun q hq ↦ h q (by simp [hq]))

theorem indexEnds_of_before (paths : List Text) {pre : List Text} (h : ∀ p ∈ paths, Indexable p)
    (hpre : pre <+: paths.map indexLine) : indexEnds pre [] = false := by
  rw [List.prefix_iff_eq_take.mp hpre, ← List.map_take]
  exact indexEnds_lines (fun p hp ↦ h p (List.mem_of_mem_take hp))

/-- An index whose messages arrive one by one inserts the paths of its lines. -/
theorem indexedLines_messages {paths : List Text} (h : ∀ p ∈ paths, Indexable p)
    (hline : ∀ p ∈ paths, newline ∉ p ∧ p ≠ []) :
    indexedLines (paths.map indexLine ++ [finishedIndexing ++ lit "\n"]) [] = paths := by
  induction paths with
  | nil => decide
  | cons p paths ih =>
    have hp := h p (by simp)
    obtain ⟨hnew, hne⟩ := hline p (by simp)
    have hpieces : p.splitOn newline = [p] := List.splitOn_eq_singleton hnew
    have hend : endsIndex p = false := hp.1
    simp only [List.map_cons, List.cons_append, indexedLines, List.length_nil, Nat.sub_zero,
      List.nil_append, buffer_indexLine hp, completeLines_line, leftover_line, hpieces,
      List.any_cons, List.any_nil, hend, Bool.false_or, Bool.false_eq_true, if_false]
    rw [ih (fun q hq ↦ h q (by simp [hq])) (fun q hq ↦ hline q (by simp [hq]))]
    simp [List.takeWhile, hend, hne]

end NetworkFileSystem.Naming
