import NetworkFileSystem.Protocol.Message

/-!
# Path arguments and where they lead

`helper.c:72–79,557–563,774–785`, `storage_server.c:680–690`. How a storage server takes
the path arguments out of a command, and the file that the operating system reaches for a
path: components are followed from the working directory (or from the top for a leading
slash), `.` stays and `..` goes up. Symbolic links are not considered.
-/

namespace NetworkFileSystem.Storage

open Base Protocol

/-- `isspace` of the C locale. -/
def isSpace (b : UInt8) : Bool := b == 32 || (9 ≤ b && b ≤ 13)

/-- The words that successive `%s` conversions read. -/
def fields (s : Text) : List Text := (s.splitOnP isSpace).filter (· ≠ [])

theorem fields_append_cons {b : UInt8} (hb : isSpace b = true) (s t : Text) :
    fields (s ++ b :: t) = fields s ++ fields t := by
  unfold fields
  rw [List.splitOnP_append_cons s t hb, List.filter_append]

theorem fields_of_noSpace {s : Text} (h : ∀ b ∈ s, isSpace b = false) (hne : s ≠ []) :
    fields s = [s] := by
  unfold fields
  rw [List.splitOnP_eq_singleton h]
  simp [hne]

/-- A text that starts with another character than white space has a word. -/
theorem fields_ne_nil {b : UInt8} (hb : isSpace b = false) (s : Text) : fields (b :: s) ≠ [] := by
  obtain ⟨w, ws, hw⟩ := List.exists_cons_of_ne_nil (List.splitOnP_ne_nil isSpace s)
  rw [fields, List.splitOnP_cons_eq_if_modifyHead, hb, hw]
  simp

theorem noSpace_of_mem_fields {s w : Text} (h : w ∈ fields s) : ∀ b ∈ w, isSpace b = false := by
  have hpieces : ∀ t : Text, ∀ v ∈ t.splitOnP isSpace, ∀ b ∈ v, isSpace b = false := by
    intro t
    induction t with
    | nil => simp
    | cons x t ih =>
      rw [List.splitOnP_cons_eq_if_modifyHead]
      split
      · simpa using ih
      · next hx =>
        obtain ⟨u, us, hu⟩ := List.exists_cons_of_ne_nil (List.splitOnP_ne_nil isSpace t)
        rw [hu] at ih ⊢
        simp only [List.modifyHead_cons, List.mem_cons, forall_eq_or_imp] at ih ⊢
        exact ⟨⟨by simpa using hx, ih.1⟩, ih.2⟩
  exact hpieces s w (List.mem_of_mem_filter h)

/-- A word without white space behind blanks, and at the end or before a blank, is the first
field. -/
theorem fields_first {u t : Text} (k : Nat) (hu : ∀ b ∈ u, isSpace b = false) (hne : u ≠ [])
    (ht : t = [] ∨ ∃ t', t = blank :: t') :
    fields (List.replicate k blank ++ (u ++ t)) = u :: fields t := by
  induction k with
  | zero =>
    obtain rfl | ⟨t', rfl⟩ := ht
    · rw [List.replicate_zero, List.nil_append, List.append_nil, fields_of_noSpace hu hne]
      rfl
    · rw [List.replicate_zero, List.nil_append, fields_append_cons (by decide),
        fields_of_noSpace hu hne]
      have htail := fields_append_cons (b := blank) (by decide) [] t'
      rw [List.nil_append] at htail
      rw [htail]
      rfl
  | succ k ih =>
    have hstep := fields_append_cons (b := blank) (by decide) [] (List.replicate k blank ++ (u ++ t))
    rw [List.replicate_succ, List.cons_append]
    rw [List.nil_append] at hstep
    rw [hstep, ih]
    rfl

theorem fields_blank_cons (t : Text) : fields (blank :: t) = fields t :=
  fields_append_cons (b := blank) (by decide) [] t

/-- White space splits the words of a line further. -/
theorem fields_eq_flatMap (s : Text) : fields s = (words s).flatMap fields := by
  induction hn : s.length using Nat.strongRecOn generalizing s with
  | ind n ih =>
    by_cases hb : blank ∈ s
    · obtain ⟨a, b, rfl, -⟩ := List.eq_append_cons_of_mem hb
      have ha := ih _ (by simp [← hn]) a rfl
      have hb := ih _ (by simp [← hn]; omega) b rfl
      rw [fields_append_cons (by decide), words, tokens_append_cons, List.flatMap_append, ha, hb]
      rfl
    · by_cases hs : s = []
      · rw [hs]
        rfl
      · rw [words, tokens_of_notMem hb hs, List.flatMap_singleton]

/-- The first two words of a line, if they have no other white space, are its first fields,
whatever follows behind a blank. -/
theorem fields_of_words {s u v rest : Text} {ws : List Text} (h : words s = u :: v :: ws)
    (hu : ∀ b ∈ u, isSpace b = false) (hv : ∀ b ∈ v, isSpace b = false)
    (hrest : rest = [] ∨ ∃ t, rest = blank :: t) :
    ∃ more, fields (s ++ rest) = u :: v :: more := by
  have hne : ∀ w ∈ words s, w ≠ [] := fun w hw ↦ ne_nil_of_mem_tokens hw
  have hune : u ≠ [] := hne u (by simp [h])
  have hvne : v ≠ [] := hne v (by simp [h])
  obtain ⟨k, t, rfl, ⟨-, hws⟩ | ⟨t', rfl, ht'⟩⟩ := tokens_eq_cons h
  · cases hws
  obtain ⟨k', t₂, rfl, ht₂⟩ := tokens_eq_cons ht'
  have htail : t₂ ++ rest = [] ∨ ∃ t, t₂ ++ rest = blank :: t := by
    obtain ⟨rfl, -⟩ | ⟨t₃, rfl, -⟩ := ht₂
    · simpa using hrest
    · exact .inr ⟨t₃ ++ rest, rfl⟩
  refine ⟨fields (t₂ ++ rest), ?_⟩
  have hsplit : List.replicate k blank ++ (u ++ blank :: (List.replicate k' blank ++ (v ++ t₂))) ++
      rest = List.replicate k blank ++ (u ++ blank :: (List.replicate k' blank ++
        (v ++ (t₂ ++ rest)))) := by
    simp
  rw [hsplit, fields_first k hu hune (.inr ⟨_, rfl⟩), fields_blank_cons,
    fields_first k' hv hvne htail]

/-- The source and destination of a copy command as `sscanf` reads them: behind the literal
in `copy_same`, `helper.c:559`, and behind the first word in `copy_different_src`,
`helper.c:781`. -/
def copyArguments (msg : Text) : List Text :=
  if startsWith (lit "copysame") msg then (fields (msg.drop 8)).take 2
  else ((fields msg).drop 1).take 2

/-- The path arguments of a command that works on entries or copies. -/
def pathArguments (msg : Text) : List Text :=
  if startsWith (lit "copy") msg then copyArguments msg else ((words msg).drop 1).take 1

/-- One component on the way of a path. -/
def resolveStep (place : List Text) (component : Text) : List Text :=
  if component = lit "." then place
  else if component = lit ".." then place.dropLast
  else place ++ [component]

/-- The names from the top of the file system that `path` leads to. -/
def resolveFrom (cwd : List Text) (path : Text) : List Text :=
  (tokens slash path).foldl resolveStep (if path.head? = some slash then [] else cwd)

/-- `path` lies in the folder `root`, both seen from the working directory `cwd`. -/
def Inside (cwd : List Text) (root path : Text) : Prop :=
  resolveFrom cwd root <+: resolveFrom cwd path

instance (cwd : List Text) (root path : Text) : Decidable (Inside cwd root path) :=
  inferInstanceAs (Decidable (_ <+: _))

private theorem prefix_foldl_resolveStep {ws : List Text} (h : lit ".." ∉ ws)
    (place : List Text) : place <+: ws.foldl resolveStep place := by
  induction ws generalizing place with
  | nil => exact List.prefix_refl _
  | cons w ws ih =>
    have hw : lit ".." ≠ w := fun he ↦ h (by simp [he])
    have hws : lit ".." ∉ ws := fun hm ↦ h (List.mem_cons_of_mem _ hm)
    have hstep : place <+: resolveStep place w := by
      unfold resolveStep
      split_ifs with h₁ h₂
      · exact List.prefix_refl _
      · exact absurd h₂.symm hw
      · exact List.prefix_append _ _
    exact hstep.trans (ih hws _)

/-- A relative path that goes on from a relative root without `..` stays inside it. -/
theorem inside_of_tokens {root path : Text} (cwd : List Text)
    (hroot : root.head? ≠ some slash) (hpath : path.head? ≠ some slash)
    (hpre : tokens slash root <+: tokens slash path)
    (hup : lit ".." ∉ (tokens slash path).drop (tokens slash root).length) :
    Inside cwd root path := by
  obtain ⟨rest, hrest⟩ := hpre
  unfold Inside resolveFrom
  rw [if_neg hroot, if_neg hpath, ← hrest, List.foldl_append]
  rw [← hrest, List.drop_left] at hup
  exact prefix_foldl_resolveStep hup _

/-! ### Canonical paths -/

/-- What the operating system takes for the name of an entry. -/
structure FileName (w : Text) : Prop where
  ne_nil : w ≠ []
  noSlash : slash ∉ w
  noNul : 0 ∉ w
  ne_dot : w ≠ lit "."
  ne_dots : w ≠ lit ".."

/-- The path `./c₁/…/cₖ`. -/
def pathText (ws : List Text) : Text := lit "." ++ ws.flatMap (slash :: ·)

theorem pathText_concat (ws : List Text) (w : Text) :
    pathText (ws ++ [w]) = pathText ws ++ slash :: w := by
  simp [pathText]

theorem pathText_slash (ws : List Text) (w : Text) :
    pathText ws ++ lit "/" ++ w = pathText (ws ++ [w]) := by
  simp [pathText_concat, lit, slash]

theorem tokens_pathText {ws : List Text} (h : ∀ w ∈ ws, w ≠ [] ∧ slash ∉ w) :
    tokens slash (pathText ws) = lit "." :: ws := by
  induction ws using List.reverseRecOn with
  | nil => decide
  | append_singleton ws w ih =>
    obtain ⟨hne, hslash⟩ := h w (by simp)
    rw [pathText_concat, tokens_append_cons, ih (fun v hv ↦ h v (by simp [hv])),
      tokens_of_notMem hslash hne, List.cons_append]

theorem infix_pathText_of_mem {ws : List Text} {w : Text} (h : w ∈ ws) : w <:+: pathText ws := by
  obtain ⟨a, b, rfl⟩ := List.append_of_mem h
  exact ⟨pathText a ++ [slash], b.flatMap (slash :: ·), by simp [pathText]⟩

theorem notMem_pathText {b : UInt8} (hb : b ∉ lit "./") {ws : List Text} (h : ∀ w ∈ ws, b ∉ w) :
    b ∉ pathText ws := by
  have hsplit : lit "./" = lit "." ++ [slash] := rfl
  rw [hsplit, List.mem_append, not_or] at hb
  rw [pathText, List.mem_append, List.mem_flatMap]
  rintro (hdot | ⟨w, hw, hin⟩)
  · exact hb.1 hdot
  · obtain rfl | hin := List.mem_cons.mp hin
    · exact hb.2 (by simp)
    · exact h w hw hin

theorem head_pathText (ws : List Text) : (pathText ws).head? ≠ some slash := by
  simp [pathText, lit, slash]

private theorem foldl_resolveStep {ws : List Text} (h : ∀ w ∈ ws, FileName w) (place : List Text) :
    ws.foldl resolveStep place = place ++ ws := by
  induction ws generalizing place with
  | nil => simp
  | cons w ws ih =>
    have hw : FileName w := h w (by simp)
    rw [List.foldl_cons, ih (fun v hv ↦ h v (by simp [hv]))]
    simp [resolveStep, hw.ne_dot, hw.ne_dots]

theorem resolveFrom_pathText {ws : List Text} (h : ∀ w ∈ ws, FileName w) (cwd : List Text) :
    resolveFrom cwd (pathText ws) = cwd ++ ws := by
  rw [resolveFrom, if_neg (head_pathText ws),
    tokens_pathText (fun w hw ↦ ⟨(h w hw).ne_nil, (h w hw).noSlash⟩), List.foldl_cons,
    foldl_resolveStep h]
  rfl

/-- The path of what the names `ws` lead to from `path`. -/
def below (path : Text) (ws : List Text) : Text := path ++ ws.flatMap (slash :: ·)

@[simp] theorem below_nil (path : Text) : below path [] = path := by
  simp [below]

theorem below_slash (path : Text) (ws : List Text) (w : Text) :
    below path ws ++ lit "/" ++ w = below path (ws ++ [w]) := by
  simp [below, lit, slash]

theorem tokens_below (path : Text) {ws : List Text} (h : ∀ w ∈ ws, FileName w) :
    tokens slash (below path ws) = tokens slash path ++ ws := by
  induction ws using List.reverseRecOn with
  | nil => simp
  | append_singleton ws w ih =>
    have hw := h w (by simp)
    have hsplit : below path (ws ++ [w]) = below path ws ++ slash :: w := by simp [below]
    rw [hsplit, tokens_append_cons, ih (fun v hv ↦ h v (by simp [hv])),
      tokens_of_notMem hw.noSlash hw.ne_nil, List.append_assoc]

theorem head_below {path : Text} (hne : path ≠ []) (ws : List Text) :
    (below path ws).head? = path.head? := by
  cases path with
  | nil => exact absurd rfl hne
  | cons b path => rfl

theorem resolveFrom_below {path : Text} (hne : path ≠ []) {ws : List Text}
    (h : ∀ w ∈ ws, FileName w) (cwd : List Text) :
    resolveFrom cwd (below path ws) = resolveFrom cwd path ++ ws := by
  rw [resolveFrom, resolveFrom, tokens_below path h, head_below hne, List.foldl_append,
    foldl_resolveStep h]

/-- A path whose last component alone may be `..` leads at most one level up. -/
theorem prefix_foldl_resolveStep_of_last {ws : List Text} (h : lit ".." ∉ ws.dropLast)
    (place : List Text) : place.dropLast <+: ws.foldl resolveStep place := by
  induction ws using List.reverseRecOn with
  | nil => exact List.dropLast_prefix place
  | append_singleton ws w _ =>
    rw [List.dropLast_concat] at h
    have hpre := prefix_foldl_resolveStep h place
    rw [List.foldl_append]
    simp only [List.foldl_cons, List.foldl_nil, resolveStep]
    split_ifs
    · exact (List.dropLast_prefix place).trans hpre
    · obtain ⟨rest, hrest⟩ := hpre
      rw [← hrest, List.dropLast_append]
      split
      · exact List.prefix_refl _
      · exact (List.dropLast_prefix place).trans (List.prefix_append _ _)
    · exact (List.dropLast_prefix place).trans (hpre.trans (List.prefix_append _ _))

end NetworkFileSystem.Storage
