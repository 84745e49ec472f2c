import NetworkFileSystem.Naming.Segments
import NetworkFileSystem.Storage.Commands
import NetworkFileSystem.Storage.Walk
import NetworkFileSystem.Trie.Refinement

/-!
# The index of a folder and the trie it builds

`helper.c:432–487`, `naming_server.c:56–103`, `tries.c:115–164`. A server walks through its
exported folder and sends a line for every entry that is not hidden; the naming server
puts the lines together again and inserts them into a trie. What can be found in the trie
does not depend on the order of the lines: it is every prefix of a path that was sent,
as long as no folder outgrows the slots of a node.
-/

namespace NetworkFileSystem.Cluster

open Base Base.PrefixSet Protocol Trie Trie.TrieNode Naming Storage

/-! ### Component lists -/

/-- A component that `ParsePath` keeps. -/
structure Component (w : Text) : Prop where
  ne_nil : w ≠ []
  noSlash : slash ∉ w
  ne_tilde : w ≠ lit "~"

theorem components_pathText {ws : List Text} (h : ∀ w ∈ ws, Component w) :
    components (pathText ws) = lit "." :: ws := by
  rw [components, tokens_pathText (fun w hw ↦ ⟨(h w hw).ne_nil, (h w hw).noSlash⟩),
    List.filter_eq_self]
  intro w hw
  obtain rfl | hw := List.mem_cons.mp hw
  · decide
  · simpa using (h w hw).ne_tilde

/-- Insertions in any order add the prefixes of all paths, if these stay within sets of children
that a node can hold. -/
theorem addPaths_of_bounded {ts : List Text} {n : TrieNode} {T : Set (List Text)}
    (hn : n.Distinct) (hshort : ∀ t ∈ ts, (components t).length < maxPath) (hnT : n.paths ⊆ T)
    (hT : ∀ t ∈ ts, ∀ v, v <+: components t → v ∈ T)
    (hcap : ∀ q, (children T q).encard ≤ maxFolders) :
    ∃ m, addPaths ts n = some m ∧ m.Distinct ∧
      m.paths = n.paths ∪ {x | x ≠ [] ∧ ∃ t ∈ ts, x <+: components t} := by
  induction ts generalizing n with
  | nil => exact ⟨n, rfl, hn, by simp⟩
  | cons t ts ih =>
    obtain ⟨n₁, hadd, hn₁, hpaths₁⟩ := TrieOp.run_refines (o := .add t) (hshort t (by simp)) hn
    change n₁.paths = insertPath maxFolders n.paths (components t) at hpaths₁
    rw [insertPath_of_bounded hnT (fun v hv _ ↦ hT t (by simp) v hv) hcap] at hpaths₁
    have hsub : n₁.paths ⊆ T := by
      rw [hpaths₁]
      rintro x (hx | ⟨hx, -⟩)
      · exact hnT hx
      · exact hT t (by simp) x hx
    obtain ⟨m, hm, hdist, hpaths⟩ := ih hn₁ (fun t' ht' ↦ hshort t' (by simp [ht'])) hsub
      (fun t' ht' ↦ hT t' (by simp [ht']))
    refine ⟨m, ?_, hdist, ?_⟩
    · rw [addPaths_cons]
      change (TrieOp.run (.add t) n).bind _ = _
      rw [hadd]
      exact hm
    · rw [hpaths, hpaths₁]
      ext x
      simp only [Set.mem_union, Set.mem_ofPred_eq, List.mem_cons, exists_eq_or_imp]
      tauto

/-! ### Visible entries -/

/-- The entries on the way of which nothing is hidden. -/
def Visible (l : Listing) (p : List Text) : Prop := ∃ e, l.Has p e ∧ ∀ w ∈ p, isHidden w = false

private theorem visible_file {name content : Text} {rest : Listing} {p : List Text} :
    Visible (.file name content rest) p ↔
      (p = [name] ∧ isHidden name = false) ∨ Visible rest p := by
  constructor
  · rintro ⟨e, ⟨rfl, -⟩ | h, hvis⟩
    · exact .inl ⟨rfl, hvis name (by simp)⟩
    · exact .inr ⟨e, h, hvis⟩
  · rintro (⟨rfl, hvis⟩ | ⟨e, h, hvis⟩)
    · exact ⟨_, .inl ⟨rfl, rfl⟩, by simpa using hvis⟩
    · exact ⟨e, .inr h, hvis⟩

private theorem visible_folder {name : Text} {sub rest : Listing} {p : List Text} :
    Visible (.folder name sub rest) p ↔
      (isHidden name = false ∧ (p = [name] ∨ ∃ q, p = name :: q ∧ Visible sub q)) ∨
        Visible rest p := by
  constructor
  · rintro ⟨e, ⟨rfl, -⟩ | ⟨q, rfl, h⟩ | h, hvis⟩
    · exact .inl ⟨hvis name (by simp), .inl rfl⟩
    · exact .inl ⟨hvis name (by simp), .inr ⟨q, rfl, e, h, fun w hw ↦ hvis w (by simp [hw])⟩⟩
    · exact .inr ⟨e, h, hvis⟩
  · rintro (⟨hname, rfl | ⟨q, rfl, e, h, hvis⟩⟩ | ⟨e, h, hvis⟩)
    · exact ⟨_, .inl ⟨rfl, rfl⟩, by simpa using hname⟩
    · exact ⟨e, .inr (.inl ⟨q, rfl, h⟩), by simpa [hname] using hvis⟩
    · exact ⟨e, .inr (.inr h), hvis⟩

/-- What lies on the way to an entry is there. -/
theorem Visible.above {l : Listing} {p q : List Text} (h : Visible l p) (hq : q <+: p)
    (hne : q ≠ []) : Visible l q := by
  induction l generalizing p q with
  | done =>
    obtain ⟨e, h, -⟩ := h
    exact h.elim
  | file name content rest ih =>
    obtain ⟨rfl, hvis⟩ | h := visible_file.mp h
    · obtain ⟨w, q, rfl⟩ := List.exists_cons_of_ne_nil hne
      obtain ⟨rfl, hnil⟩ := List.cons_prefix_cons.mp hq
      exact visible_file.mpr (.inl ⟨by rw [List.prefix_nil.mp hnil], hvis⟩)
    · exact visible_file.mpr (.inr (ih h hq hne))
  | folder name sub rest ihs ih =>
    obtain ⟨hname, hp⟩ | h := visible_folder.mp h
    · obtain ⟨w, q, rfl⟩ := List.exists_cons_of_ne_nil hne
      refine visible_folder.mpr (.inl ⟨hname, ?_⟩)
      obtain rfl | ⟨r, rfl, hr⟩ := hp
      · obtain ⟨rfl, hnil⟩ := List.cons_prefix_cons.mp hq
        exact .inl (by rw [List.prefix_nil.mp hnil])
      · obtain ⟨rfl, hqr⟩ := List.cons_prefix_cons.mp hq
        by_cases hq0 : q = []
        · exact .inl (by rw [hq0])
        · exact .inr ⟨q, rfl, ihs hr hqr hq0⟩
    · exact visible_folder.mpr (.inr (ih h hq hne))

/-- The walk sends the paths of the visible entries. -/
theorem mem_entryPaths {l : Listing} {ws : List Text}
    (hfit : ∀ p, Visible l p → (pathText (ws ++ p)).length + 1 < maxPathSize) {t : Text} :
    t ∈ entryPaths (pathText ws) l ↔ ∃ p, Visible l p ∧ t = pathText (ws ++ p) := by
  induction l generalizing ws with
  | done => simp [entryPaths, Visible, Listing.Has]
  | file name content rest ih =>
    rw [entryPaths, List.mem_append, pathText_slash,
      ih (fun p hp ↦ hfit p (visible_file.mpr (.inr hp)))]
    simp only [visible_file]
    cases hhid : isHidden name with
    | true => simp
    | false => simp [or_and_right, exists_or]
  | folder name sub rest ihs ih =>
    rw [entryPaths, List.mem_append, pathText_slash,
      ih (fun p hp ↦ hfit p (visible_folder.mpr (.inr hp)))]
    simp only [visible_folder]
    cases hhid : isHidden name with
    | true => simp
    | false =>
      have hname := hfit [name] (visible_folder.mpr (.inl ⟨hhid, .inl rfl⟩))
      have hfit' : ∀ q, Visible sub q → (pathText (ws ++ [name] ++ q)).length + 1 < maxPathSize := by
        intro q hq
        simpa using hfit (name :: q) (visible_folder.mpr (.inl ⟨hhid, .inr ⟨q, rfl, hq⟩⟩))
      have hsub := ihs hfit'
      rw [dropLast_indexLine hname]
      simp only [Bool.false_eq_true, if_false, List.mem_cons, hsub, true_and]
      constructor
      · rintro ((rfl | rfl | ⟨q, hq, rfl⟩) | ⟨p, hp, rfl⟩)
        · exact ⟨[name], .inl (.inl rfl), rfl⟩
        · exact ⟨[name], .inl (.inl rfl), rfl⟩
        · exact ⟨name :: q, .inl (.inr ⟨q, rfl, hq⟩), by simp⟩
        · exact ⟨p, .inr hp, rfl⟩
      · rintro ⟨p, (rfl | ⟨q, rfl, hq⟩) | hp, rfl⟩
        · exact .inl (.inl rfl)
        · exact .inl (.inr (.inr ⟨q, hq, by simp⟩))
        · exact .inr ⟨p, hp, rfl⟩

/-! ### What a walk shows -/

/-- The component lists of the exported folder `./c₁/…/cₖ`, of its visible entries, and of what
lies above them. -/
def shownBelow (cs : List Text) (l : Listing) : Set (List Text) :=
  {ws | ∃ p, (p = [] ∨ Visible l p) ∧ ws <+: lit "." :: (cs ++ p)}

/-- No folder shows more entries than a node has slots. -/
theorem encard_children_shownBelow {cs : List Text} {l : Listing}
    (hroom : ∀ p, {w | Visible l (p ++ [w])}.encard ≤ maxFolders) (q : List Text) :
    (children (shownBelow cs l) q).encard ≤ maxFolders := by
  by_cases hq : q.length < (lit "." :: cs).length
  · -- On the way to the exported folder there is one child.
    have hsub : children (shownBelow cs l) q ⊆ {(lit "." :: cs)[q.length]} := by
      rintro a ⟨p, -, t, ht⟩
      have hleft : (q ++ [a] ++ t)[q.length]? = some a := by simp
      rw [ht, ← List.cons_append, List.getElem?_append_left hq, List.getElem?_eq_getElem hq] at hleft
      exact (Option.some.inj hleft).symm
    refine (Set.encard_le_encard hsub).trans ?_
    rw [Set.encard_singleton]
    exact_mod_cast (by decide : 1 ≤ maxFolders)
  · refine (Set.encard_le_encard ?_).trans (hroom (q.drop (lit "." :: cs).length))
    rintro a ⟨p, hp, hpre⟩
    rw [← List.cons_append] at hpre
    obtain ⟨r, rfl⟩ : lit "." :: cs <+: q :=
      List.prefix_of_prefix_length_le (List.prefix_append _ p)
        ((List.prefix_append q [a]).trans hpre) (by omega)
    rw [List.append_assoc, List.prefix_append_right_inj] at hpre
    rw [Set.mem_ofPred_eq, List.drop_left]
    obtain rfl | hp := hp
    · exact absurd (List.prefix_nil.mp hpre) (by simp)
    · exact hp.above hpre (by simp)

/-- What a folder must be like for its index to be read: the lines say what they are meant to
say, and no folder has too many entries. -/
structure Exportable (cs : List Text) (l : Listing) : Prop where
  component : ∀ p, p = [] ∨ Visible l p → ∀ w ∈ cs ++ p, Component w
  line : ∀ p, p = [] ∨ Visible l p → ∀ w ∈ cs ++ p,
    newline ∉ w ∧ 0 ∉ w ∧ containsText finishedIndexing w = false
  short : ∀ p, p = [] ∨ Visible l p → (lit "." :: (cs ++ p)).length < maxPath
  fits : ∀ p, p = [] ∨ Visible l p → (pathText (cs ++ p)).length + 1 < maxPathSize
  room : ∀ p, {w | Visible l (p ++ [w])}.encard ≤ maxFolders

namespace Exportable

variable {cs : List Text} {l : Listing}

theorem mem_indexPaths (h : Exportable cs l) {t : Text} :
    t ∈ indexPaths (pathText cs) l ↔ ∃ p, (p = [] ∨ Visible l p) ∧ t = pathText (cs ++ p) := by
  rw [indexPaths, List.mem_cons, mem_entryPaths (fun p hp ↦ h.fits p (.inr hp))]
  constructor
  · rintro (rfl | ⟨p, hp, rfl⟩)
    · exact ⟨[], .inl rfl, by rw [List.append_nil]⟩
    · exact ⟨p, .inr hp, rfl⟩
  · rintro ⟨p, rfl | hp, rfl⟩
    · exact .inl (by rw [List.append_nil])
    · exact .inr ⟨p, hp, rfl⟩

/-- The paths of the index build a trie in which exactly these paths are found. -/
theorem addPaths (h : Exportable cs l) :
    ∃ m, Naming.addPaths (indexPaths (pathText cs) l) (createNode (lit ".")) = some m ∧
      m.Distinct ∧ m.paths = shownBelow cs l := by
  have hcomp : ∀ t ∈ indexPaths (pathText cs) l,
      ∃ p, (p = [] ∨ Visible l p) ∧ components t = lit "." :: (cs ++ p) := by
    intro t ht
    obtain ⟨p, hp, rfl⟩ := h.mem_indexPaths.mp ht
    exact ⟨p, hp, components_pathText (h.component p hp)⟩
  have hshort : ∀ t ∈ indexPaths (pathText cs) l, (components t).length < maxPath := by
    intro t ht
    obtain ⟨p, hp, hc⟩ := hcomp t ht
    rw [hc]
    exact h.short p hp
  have hstart : (createNode (lit ".")).paths ⊆ shownBelow cs l := by
    rw [paths_createNode]
    rintro x rfl
    exact ⟨[], .inl rfl, List.nil_prefix⟩
  have hall : ∀ t ∈ indexPaths (pathText cs) l, ∀ v, v <+: components t → v ∈ shownBelow cs l := by
    intro t ht v hv
    obtain ⟨p, hp, hc⟩ := hcomp t ht
    exact ⟨p, hp, hc ▸ hv⟩
  obtain ⟨m, hm, hdist, hpaths⟩ := addPaths_of_bounded (distinct_createNode (lit ".")) hshort hstart
    hall (encard_children_shownBelow h.room)
  refine ⟨m, hm, hdist, ?_⟩
  rw [hpaths, paths_createNode]
  ext x
  constructor
  · rintro (rfl | ⟨-, t, ht, hx⟩)
    · exact ⟨[], .inl rfl, List.nil_prefix⟩
    · exact hall t ht x hx
  · rintro ⟨p, hp, hx⟩
    by_cases hne : x = []
    · exact .inl hne
    · exact .inr ⟨hne, _, h.mem_indexPaths.mpr ⟨p, hp, rfl⟩,
        by rwa [components_pathText (h.component p hp)]⟩

/-! ### Lines -/

/-- A text without slashes is part of a path only if it is part of one of its components. -/
private theorem containsText_pathText {m : Text} (hm : slash ∉ m) (hdot : ¬ m <:+: lit ".")
    {ws : List Text} (h : ∀ w ∈ ws, containsText m w = false) :
    containsText m (pathText ws) = false := by
  rw [Bool.eq_false_iff, Ne, containsText_iff]
  induction ws using List.reverseRecOn with
  | nil => simpa [pathText] using hdot
  | append_singleton ws w ih =>
    rw [pathText_concat]
    intro hin
    obtain hin | hin := infix_of_infix_append_cons hm hin
    · exact ih (fun v hv ↦ h v (by simp [hv])) hin
    · exact absurd (containsText_iff.mpr hin) (by simp [h w (by simp)])

theorem pathLine (h : Exportable cs l) {t : Text} (ht : t ∈ indexPaths (pathText cs) l) :
    PathLine t := by
  obtain ⟨p, hp, rfl⟩ := h.mem_indexPaths.mp ht
  have hfits := h.fits p hp
  constructor
  · simp [pathText, lit]
  · exact notMem_pathText (by decide) (fun w hw ↦ (h.line p hp w hw).1)
  · exact notMem_pathText (by decide) (fun w hw ↦ (h.line p hp w hw).2.1)
  · omega
  · refine containsText_pathText (by decide) ?_ (fun w hw ↦ (h.line p hp w hw).2.2)
    intro hin
    exact absurd hin.length_le (by decide)

/-- The messages of the walk are the bytes of the index. -/
theorem flatten_indexMessages (h : Exportable cs l) :
    (indexMessages (indexPaths (pathText cs) l)).flatten =
      indexStream (indexPaths (pathText cs) l) := by
  have hline : (indexPaths (pathText cs) l).map indexLine =
      (indexPaths (pathText cs) l).map (· ++ [newline]) := by
    refine List.map_congr_left (fun t ht ↦ ?_)
    obtain ⟨p, hp, rfl⟩ := h.mem_indexPaths.mp ht
    exact indexLine_eq (h.fits p hp)
  rw [indexMessages, hline, indexStream, List.flatMap_append, List.flatten_append]
  simp [List.flatMap_def, lit, newline]

end Exportable

/-- For every tree that can be exported and every delivery of its index in which the unfinished
line and the next segment fit the buffer: `indexHelper` comes to the end, and the component
lists that are found in the trie are the prefixes of the paths whose names below the root are
not hidden. -/
theorem index_shows_visible_paths {cs : List Text} {l : Listing} (h : Exportable cs l)
    {segments : List Text}
    (hcut : segments.flatten = (indexMessages (indexPaths (pathText cs) l)).flatten)
    (hfits : Fits segments []) :
    ∃ root, indexHelper segments [] (createNode (lit ".")) = some (root, true) ∧
      ∀ ws, searchPathHelper ws root = true ↔
        ∃ p, (p = [] ∨ Visible l p) ∧ ws <+: lit "." :: (cs ++ p) := by
  rw [h.flatten_indexMessages] at hcut
  obtain ⟨hindexed, hends⟩ := indexed_of_stream (fun t ht ↦ h.pathLine ht) hcut hfits
  obtain ⟨m, hm, -, hpaths⟩ := h.addPaths
  refine ⟨m, ?_, fun ws ↦ ?_⟩
  · rw [indexHelper_eq_map, hindexed, hends, hm]
    rfl
  · change ws ∈ m.paths ↔ _
    rw [hpaths]
    rfl

/-- A folder with a folder, a file in it, and a hidden file. -/
private def sampleTree : Listing :=
  .folder (lit "d") (.file (lit "f") (lit "x") .done) (.file (lit ".h") [] .done)

private theorem visible_sampleTree {p : List Text} (h : p = [] ∨ Visible sampleTree p) :
    p = [] ∨ p = [lit "d"] ∨ p = [lit "d", lit "f"] := by
  have hdone : ∀ q, ¬ Visible .done q := fun q ⟨_, he, _⟩ ↦ he
  have hhidden : isHidden (lit ".h") = true := by decide
  obtain rfl | h := h
  · exact .inl rfl
  · obtain ⟨-, rfl | ⟨q, rfl, hq⟩⟩ | h := visible_folder.mp h
    · exact .inr (.inl rfl)
    · obtain ⟨rfl, -⟩ | hq := visible_file.mp hq
      · exact .inr (.inr rfl)
      · exact absurd hq (hdone q)
    · obtain ⟨-, hno⟩ | h := visible_file.mp h
      · rw [hhidden] at hno
        cases hno
      · exact absurd h (hdone p)

private theorem exportable_sampleTree : Exportable [lit "s"] sampleTree := by
  have hnames : ∀ w ∈ [lit "s", lit "d", lit "f"], Component w ∧
      newline ∉ w ∧ 0 ∉ w ∧ containsText finishedIndexing w = false := by
    intro w hw
    simp only [List.mem_cons, List.not_mem_nil, or_false] at hw
    obtain rfl | rfl | rfl := hw <;> exact ⟨⟨by decide, by decide, by decide⟩, by decide⟩
  have hmem : ∀ p, p = [] ∨ Visible sampleTree p → ∀ w ∈ [lit "s"] ++ p,
      w ∈ [lit "s", lit "d", lit "f"] := by
    intro p hp w hw
    obtain rfl | rfl | rfl := visible_sampleTree hp <;> simp at hw ⊢ <;> tauto
  refine ⟨fun p hp w hw ↦ (hnames w (hmem p hp w hw)).1,
    fun p hp w hw ↦ (hnames w (hmem p hp w hw)).2, ?_, ?_, ?_⟩
  · intro p hp
    obtain rfl | rfl | rfl := visible_sampleTree hp <;> decide
  · intro p hp
    obtain rfl | rfl | rfl := visible_sampleTree hp <;> decide
  · intro p
    have hsub : {w | Visible sampleTree (p ++ [w])} ⊆ {lit "d", lit "f"} := by
      intro w hw
      obtain hlast | hlast | hlast := visible_sampleTree (.inr hw)
      · simp at hlast
      · exact .inl (by simpa using congrArg List.getLast? hlast)
      · exact .inr (by simpa using congrArg List.getLast? hlast)
    refine (Set.encard_le_encard hsub).trans ?_
    rw [Set.encard_pair (by decide)]
    exact_mod_cast (by decide : 2 ≤ maxFolders)

/-- The index of the sample, cut inside the line of a folder and inside the end marker. -/
theorem index_shows_visible_paths_sample :
    ∃ root, indexHelper [lit "./s\n./s/d\n./", lit "s/d\n./s/d/f\n@!-Fin", lit "ished Indexing-!@\n"]
        [] (createNode (lit ".")) = some (root, true) ∧
      ∀ ws, searchPathHelper ws root = true ↔
        ∃ p, (p = [] ∨ Visible sampleTree p) ∧ ws <+: lit "." :: ([lit "s"] ++ p) :=
  index_shows_visible_paths exportable_sampleTree (by decide)
    ⟨by decide, by decide, by decide, trivial⟩

end NetworkFileSystem.Cluster
