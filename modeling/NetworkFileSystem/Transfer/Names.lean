import NetworkFileSystem.Transfer.Exact

/-!
# Names on the connection

`helper.c:850–861,894–929,1051–1074,1122–1138`. The sender prints the path of every entry into
the line that announces it; the receiver takes the first word of the rest of the line. What a
run of the sender announces, where a run of the receiver puts it, and which names arrive.
-/

namespace NetworkFileSystem.Transfer

open Base Protocol Storage Prog

/-- The path at which a walk meets an entry: every step prints into a buffer of its own,
`helper.c:913–914`. -/
def walkPath (src : Text) (ws : List Text) : Text :=
  ws.foldl (fun path name ↦ clip maxPathSize (path ++ lit "/" ++ name)) src

/-- What is sent of that path. -/
def sentPath (src : Text) (skip : Nat) (ws : List Text) : Text := (walkPath src ws).drop skip

/-- The name that both receivers read from a line, `helper.c:1054,1066`, again at `1125,1133`. -/
def announcedName (bytes : Text) : Option Text :=
  let buffer := cstr bytes
  if startsWith (lit "FILE ") buffer then (fields (buffer.drop 5)).head?
  else if startsWith (lit "DIR ") buffer then (fields (buffer.drop 4)).head?
  else none

/-- A path without a leading `./`. -/
def withoutDot (path : Text) : Text := if startsWith (lit "./") path then path.drop 2 else path

/-! ### Runs of the sender -/

/-- The run has read the name of an entry from a folder. -/
def Lists (tr : List (Event SendOp SendOp.Res)) (name : Text) : Prop :=
  ∃ path entries, (⟨.opendir path, some entries⟩ : Event SendOp SendOp.Res) ∈ tr ∧
    name ∈ entries ∧ isDots name = false

/-- A line of the sender: a size, or the announcement of an entry that the run has listed. -/
def Announces (tr : List (Event SendOp SendOp.Res)) (src : Text) (skip : Nat) (us : List Text)
    (t : Text) : Prop :=
  (∃ n, t = sizeLine n) ∨ ∃ ws, (∀ w ∈ ws, Lists tr w) ∧
    (t = fileLine (sentPath src skip (us ++ ws)) ∨ t = dirLine (sentPath src skip (us ++ ws)))

private theorem Lists.mono {tr tr' : List (Event SendOp SendOp.Res)} (hsub : ∀ e ∈ tr, e ∈ tr')
    {name : Text} (h : Lists tr name) : Lists tr' name := by
  obtain ⟨path, entries, hmem, hname⟩ := h
  exact ⟨path, entries, hsub _ hmem, hname⟩

private theorem exec_forEach {Op : Type} {Res : Op → Type} {α : Type}
    {body : α → Prog Op Res Unit} {l : List α} {tr : List (Event Op Res)} {out : Option Unit}
    (h : Exec (forEach body l) tr out) {e : Event Op Res} (he : e ∈ tr) :
    ∃ a ∈ l, ∃ tr' out', Exec (body a) tr' out' ∧ e ∈ tr' ∧ ∀ x ∈ tr', x ∈ tr := by
  induction l generalizing tr with
  | nil =>
    rw [h.1] at he
    cases he
  | cons a l ih =>
    rcases exec_bind.mp h with ⟨ha, -⟩ | ⟨_, t₁, t₂, rfl, ha, hrest⟩
    · exact ⟨a, List.mem_cons_self, tr, none, ha, he, fun _ hx ↦ hx⟩
    · rcases List.mem_append.mp he with he | he
      · exact ⟨a, List.mem_cons_self, t₁, _, ha, he, fun _ hx ↦ List.mem_append_left _ hx⟩
      · rcases ih hrest he with ⟨b, hb, t', out', hx, he', hsub⟩
        exact ⟨b, List.mem_cons_of_mem _ hb, t', out', hx, he',
          fun _ hy ↦ List.mem_append_right _ (hsub _ hy)⟩

private theorem only_converse {P : SendOp → Prop} {x : Packet} (hsend : P (.send x))
    (hrecv : P .recv) : Only P (converse x) := by
  refine only_bind (⟨hsend, fun _ ↦ trivial⟩ : Only P (sendCall (.send x))) (fun ok ↦ ?_)
  cases ok
  · exact trivial
  · exact ⟨hrecv, fun _ ↦ trivial⟩

/-- A file sends its announcement and its size. -/
private theorem only_sendFileOverNetwork (fuel : Nat) (src : Text) (skip : Nat) :
    Only (fun o ↦ ∀ t, o = .send (.line t) → t = fileLine (src.drop skip) ∨ ∃ n, t = sizeLine n)
      (sendFileOverNetwork fuel src skip) := by
  have hchunks : ∀ fuel offset, Only (fun o ↦ ∀ t, o = .send (.line t) →
      t = fileLine (src.drop skip) ∨ ∃ n, t = sizeLine n) (sendChunks fuel offset) := by
    intro fuel
    induction fuel with
    | zero => exact fun _ ↦ trivial
    | succ fuel ih =>
      intro offset
      refine ⟨fun t ht ↦ (by cases ht), fun bytes ↦ ?_⟩
      show Only _ (if bytes = [] then _ else _)
      split
      · exact trivial
      · apply only_bind (only_converse (fun t ht ↦ by cases ht) (fun t ht ↦ by cases ht))
        intro ok
        cases ok
        · exact trivial
        · exact ih _
  have hname : ∀ t, SendOp.send (.line (fileLine (src.drop skip))) = .send (.line t) →
      t = fileLine (src.drop skip) ∨ ∃ n, t = sizeLine n := by
    intro t ht
    cases ht
    exact .inl rfl
  have hsize : ∀ n t, SendOp.send (.line (sizeLine n)) = .send (.line t) →
      t = fileLine (src.drop skip) ∨ ∃ n, t = sizeLine n := by
    intro n t ht
    cases ht
    exact .inr ⟨n, rfl⟩
  refine ⟨fun t ht ↦ (by cases ht), fun opened ↦ ?_⟩
  cases opened with
  | false => exact trivial
  | true =>
    refine ⟨fun t ht ↦ (by cases ht), fun size ↦ ?_⟩
    cases size with
    | none => exact trivial
    | some size =>
      apply only_bind (only_converse hname (fun t ht ↦ by cases ht))
      intro ok
      cases ok with
      | false => exact trivial
      | true =>
        apply only_bind (only_converse (hsize size) (fun t ht ↦ by cases ht))
        intro ok'
        cases ok'
        · exact trivial
        · exact hchunks _ _

/-- What a run through a folder announces. The induction is on the depth of the calls, `us` being
the names on the way to the folder. -/
theorem sendDirectory_announces {fuel skip : Nat} {src : Text} {us : List Text}
    {tr : List (Event SendOp SendOp.Res)} {out : Option Unit}
    (h : Exec (sendDirectoryOverNetwork fuel (walkPath src us) skip) tr out) {t : Text} {r : Bool}
    (ht : (⟨.send (.line t), r⟩ : Event SendOp SendOp.Res) ∈ tr) :
    Announces tr src skip us t := by
  induction fuel generalizing us tr out with
  | zero =>
    rw [h.1] at ht
    cases ht
  | succ fuel ih =>
    unfold sendDirectoryOverNetwork at h
    obtain ⟨listed, t₀, rfl, h₀⟩ := exec_call_bind.mp h
    rw [List.mem_cons] at ht
    rcases ht with ht | ht
    · cases ht
    cases listed with
    | none =>
      rw [h₀.1] at ht
      cases ht
    | some entries =>
      have hself : ∀ {x : List (Event SendOp SendOp.Res)} {o : Option Bool},
          Exec (converse (.line (dirLine (sentPath src skip us)))) x o →
          (⟨.send (.line t), r⟩ : Event SendOp SendOp.Res) ∈ x →
          t = dirLine (sentPath src skip us) := by
        intro x o hx hmem
        have honly : Only (fun o ↦ ∀ t, o = .send (.line t) → t = dirLine (sentPath src skip us))
            (converse (.line (dirLine (sentPath src skip us)))) := by
          apply only_converse
          · intro t' ht'
            cases ht'
            rfl
          · intro t' ht'
            cases ht'
        exact honly.exec hx _ hmem t rfl
      have hown : t = dirLine (sentPath src skip us) →
          Announces (⟨.opendir (walkPath src us), some entries⟩ :: t₀) src skip us t := by
        rintro rfl
        exact .inr ⟨[], by simp, .inr (by rw [List.append_nil])⟩
      simp only at h₀
      rcases exec_bind.mp h₀ with ⟨hconv, -⟩ | ⟨ok, t₁, t₂, rfl, hconv, hrest⟩
      · exact hown (hself hconv ht)
      rw [List.mem_append] at ht
      rcases ht with ht | ht
      · exact hown (hself hconv ht)
      cases ok with
      | false =>
        rw [hrest.1] at ht
        cases ht
      | true =>
        rcases exec_forEach hrest ht with ⟨name, hname, t₃, out₃, hbody, he, hsub⟩
        unfold sendEntry at hbody
        split at hbody
        · rw [hbody.1] at he
          cases he
        · next hdots =>
          obtain ⟨kind, t₄, rfl, hentry⟩ := exec_call_bind.mp hbody
          have hlist : Lists (⟨.opendir (walkPath src us), some entries⟩ :: (t₁ ++ t₂)) name :=
            ⟨walkPath src us, entries, List.mem_cons_self, hname, by simpa using hdots⟩
          have hstep : clip maxPathSize (walkPath src us ++ lit "/" ++ name) =
              walkPath src (us ++ [name]) := by
            rw [walkPath, walkPath, List.foldl_append]
            rfl
          rw [hstep] at hentry
          rw [List.mem_cons, or_iff_right (by rintro ⟨⟩)] at he
          cases kind with
          | none =>
            rw [hentry.1] at he
            cases he
          | some kind =>
            cases kind with
            | other =>
              rw [hentry.1] at he
              cases he
            | file =>
              rcases (only_sendFileOverNetwork fuel _ skip).exec hentry _ he t rfl with htext | hsize
              · refine .inr ⟨[name], ?_, .inl htext⟩
                intro w hw
                rw [List.mem_singleton] at hw
                exact hw ▸ hlist
              · exact .inl hsize
            | folder =>
              rcases ih hentry he with hsize | ⟨ws, hws, htext⟩
              · exact .inl hsize
              · refine .inr ⟨name :: ws, ?_, ?_⟩
                · intro w hw
                  rw [List.mem_cons] at hw
                  rcases hw with rfl | hw
                  · exact hlist
                  · apply (hws w hw).mono
                    intro x hx
                    exact List.mem_cons_of_mem _
                      (List.mem_append_right _ (hsub x (List.mem_cons_of_mem _ hx)))
                · rwa [List.append_assoc] at htext

/-! ### Runs of the receivers -/

private theorem only_receiveAndSaveFile (dest : Text) :
    Only (fun o ↦ ∀ path, o = .mkdir path ∨ (∃ n, o = .fopen path n) → path = dest)
      (receiveAndSaveFile dest) := by
  have hchunk : ∀ fuel remaining chunk, Only (fun o ↦ ∀ path, o = .mkdir path ∨
      (∃ n, o = .fopen path n) → path = dest) (receiveChunk fuel remaining chunk) := by
    intro fuel
    induction fuel with
    | zero => exact fun _ _ ↦ trivial
    | succ fuel ih =>
      intro remaining chunk
      unfold receiveChunk
      split
      · exact trivial
      · refine ⟨by simp, fun bytes ↦ ?_⟩
        show Only _ (if bytes = [] then _ else _)
        split
        · exact trivial
        · exact ih _ _
  have hcontents : ∀ fuel remaining, Only (fun o ↦ ∀ path, o = .mkdir path ∨
      (∃ n, o = .fopen path n) → path = dest) (receiveContents dest fuel remaining) := by
    intro fuel
    induction fuel with
    | zero => exact fun _ ↦ trivial
    | succ fuel ih =>
      intro remaining
      unfold receiveContents
      split
      · exact trivial
      · apply only_bind (hchunk _ _ _)
        intro chunk
        cases chunk with
        | none => exact trivial
        | some chunk =>
          refine ⟨by simp, fun ok ↦ ?_⟩
          cases ok
          · exact trivial
          · exact ⟨by simp, fun _ ↦ ih _⟩
  refine ⟨by simp, fun bytes ↦ ?_⟩
  show Only _ (if bytes = [] then _ else _)
  split
  · exact trivial
  · refine ⟨by simp, fun _ ↦ ⟨?_, fun opened ↦ ?_⟩⟩
    · rintro path (h | ⟨n, h⟩)
      · cases h
      · cases h
        rfl
    · cases opened
      · exact trivial
      · exact hcontents _ _

/-- Both receivers make a folder or open a file only where a line that they have received says.
The induction is on the rounds of the main loop. -/
theorem receiveEntries_makes {strips : Bool} {base path : Text} {fuel : Nat}
    {tr : List (Event RecvOp RecvOp.Res)} {out : Option Unit}
    (h : Exec (receiveEntries strips base fuel) tr out) {e : Event RecvOp RecvOp.Res} (he : e ∈ tr)
    (hop : e.1 = .mkdir path ∨ ∃ n, e.1 = .fopen path n) :
    ∃ bytes name, (⟨.recvCommand, bytes⟩ : Event RecvOp RecvOp.Res) ∈ tr ∧
      announcedName bytes = some name ∧ path = fullPath strips base name := by
  induction fuel generalizing tr with
  | zero =>
    rw [h.1] at he
    cases he
  | succ fuel ih =>
    unfold receiveEntries at h
    obtain ⟨bytes, t₀, rfl, h₀⟩ := exec_call_bind.mp h
    have hlater : ∀ {t : List (Event RecvOp RecvOp.Res)}, (∀ x ∈ t, x ∈ t₀) →
        Exec (receiveEntries strips base fuel) t out → e ∈ t →
        ∃ bytes' name, (⟨.recvCommand, bytes'⟩ : Event RecvOp RecvOp.Res) ∈
          (⟨.recvCommand, bytes⟩ : Event RecvOp RecvOp.Res) :: t₀ ∧
          announcedName bytes' = some name ∧ path = fullPath strips base name := by
      intro t hsub hx hmem
      rcases ih hx hmem with ⟨bytes', name, hcommand, hname⟩
      exact ⟨bytes', name, List.mem_cons_of_mem _ (hsub _ hcommand), hname⟩
    have hother : e ≠ ⟨.recvCommand, bytes⟩ := by
      rintro rfl
      simp at hop
    have hack : e.1 ≠ .sendAck := by
      intro heq
      rw [heq] at hop
      simp at hop
    rw [List.mem_cons, or_iff_right hother] at he
    simp only at h₀
    split at h₀
    · rw [h₀.1] at he
      cases he
    split at h₀
    · rw [h₀.1] at he
      cases he
    split at h₀
    · next hfile =>
      rcases exec_ofOption_bind.mp h₀ with ⟨-, rfl, -⟩ | ⟨name, hname, h₁⟩
      · cases he
      have hannounced : announcedName bytes = some name := by
        rw [announcedName, if_pos hfile, hname]
      obtain ⟨_, t₁, rfl, h₂⟩ := exec_call_bind.mp h₁
      rw [List.mem_cons, or_iff_right (fun h ↦ hack (by rw [h]))] at he
      have hown : ∀ {t : List (Event RecvOp RecvOp.Res)} {o : Option Unit},
          Exec (receiveAndSaveFile (fullPath strips base name)) t o → e ∈ t →
          path = fullPath strips base name :=
        fun hx hmem ↦ (only_receiveAndSaveFile _).exec hx e hmem path hop
      rcases exec_bind.mp h₂ with ⟨hsave, -⟩ | ⟨_, t₂, t₃, rfl, hsave, hrest⟩
      · exact ⟨bytes, name, List.mem_cons_self, hannounced, hown hsave he⟩
      · rcases List.mem_append.mp he with he | he
        · exact ⟨bytes, name, List.mem_cons_self, hannounced, hown hsave he⟩
        · exact hlater (fun x hx ↦ List.mem_cons_of_mem _ (List.mem_append_right _ hx)) hrest he
    · next hfile =>
      split at h₀
      · next hdir =>
        rcases exec_ofOption_bind.mp h₀ with ⟨-, rfl, -⟩ | ⟨name, hname, h₁⟩
        · cases he
        have hannounced : announcedName bytes = some name := by
          rw [announcedName, if_neg hfile, if_pos hdir, hname]
        obtain ⟨_, t₁, rfl, h₂⟩ := exec_call_bind.mp h₁
        rw [List.mem_cons, or_iff_right (fun h ↦ hack (by rw [h]))] at he
        obtain ⟨made, t₂, rfl, h₃⟩ := exec_call_bind.mp h₂
        rcases List.mem_cons.mp he with rfl | he
        · refine ⟨bytes, name, List.mem_cons_self, hannounced, ?_⟩
          rcases hop with hop | ⟨n, hop⟩
          · cases hop
            rfl
          · cases hop
        · exact hlater (fun x hx ↦ List.mem_cons_of_mem _ (List.mem_cons_of_mem _ hx)) h₃ he
      · exact hlater (fun x hx ↦ hx) h₀ he

/-! ### Which names arrive -/

section Survival

variable {src text : Text} {skip : Nat} {ws : List Text}

private theorem walkPath_concat (ws : List Text) (w : Text) :
    walkPath src (ws ++ [w]) = clip maxPathSize (walkPath src ws ++ lit "/" ++ w) := by
  rw [walkPath, List.foldl_append]
  rfl

/-- A path that does not fill the buffer is not cut. -/
theorem walkPath_eq_below (h : (walkPath src ws).length + 1 < maxPathSize) :
    walkPath src ws = below src ws := by
  induction ws using List.reverseRecOn with
  | nil => simp [walkPath]
  | append_singleton ws w ih =>
    rw [walkPath_concat] at h ⊢
    rw [clip, List.length_take] at h
    have hshort : (walkPath src ws ++ lit "/" ++ w).length ≤ maxPathSize - 1 := by omega
    rw [clip, List.take_of_length_le hshort, ih, below_slash]
    simp only [List.length_append] at hshort h
    omega

/-- The entry below `src` at the names `ws` is announced by `text`, which arrives whole. -/
structure Announced (src : Text) (skip : Nat) (ws : List Text) (text : Text) : Prop where
  names : ∀ w ∈ ws, FileName w
  isLine : text = fileLine (sentPath src skip ws) ∨ text = dirLine (sentPath src skip ws)
  fits : text.length < bufferSize

/-- The receiver reads the path that was sent, up to a leading `./`. -/
def Survives (src : Text) (skip : Nat) (ws : List Text) (text : Text) : Prop :=
  ∃ name, announcedName text = some name ∧ withoutDot name = withoutDot (sentPath src skip ws)

/-- A line that arrives whole has been printed whole. -/
private theorem clip_of_fits {size : Nat} {t : Text} (hsize : bufferSize < size)
    (h : (clip size t).length < bufferSize) : clip size t = t := by
  rw [clip, List.length_take] at h
  exact List.take_of_length_le (by omega)

private theorem announcedName_of_line {verb path : Text}
    (hverb : verb = lit "FILE " ∨ verb = lit "DIR ") (hnul : 0 ∉ path) :
    announcedName (verb ++ path ++ lit "\n") = (fields path).head? := by
  have hfields : fields (path ++ lit "\n") = fields path := by
    have hsplit : fields (path ++ lit "\n") = fields path ++ fields [] :=
      fields_append_cons (b := 10) (by decide) path []
    rw [hsplit]
    exact List.append_nil _
  have hcstr : cstr (verb ++ path ++ lit "\n") = verb ++ path ++ lit "\n" := by
    apply cstr_eq_self
    simp only [List.mem_append, not_or]
    refine ⟨⟨?_, hnul⟩, by decide⟩
    rcases hverb with rfl | rfl <;> decide
  unfold announcedName
  simp only [hcstr]
  rcases hverb with rfl | rfl
  · rw [if_pos (by simp [startsWith, lit, List.isPrefixOf])]
    show (fields (path ++ lit "\n")).head? = _
    rw [hfields]
  · rw [if_neg (by simp [startsWith, lit, List.isPrefixOf]),
      if_pos (by simp [startsWith, lit, List.isPrefixOf])]
    show (fields (path ++ lit "\n")).head? = _
    rw [hfields]

theorem lengthBeforeName_le {src : Text} {n : Nat} (h : lengthBeforeName src = some n) :
    n ≤ src.length := by
  unfold lengthBeforeName at h
  split at h
  · cases h
    omega
  · cases h

/-- Neither form skips more than the source path. -/
theorem skip_le_length {lcopy : Bool} {dest : Text} {kind : Kind}
    (h : lengthToSkip lcopy src dest kind = some skip ∨ lengthToSkipB src dest kind = some skip) :
    skip ≤ src.length := by
  cases hbefore : lengthBeforeName src with
  | none => simp [lengthToSkip, lengthToSkipB, hbefore] at h
  | some n =>
    have hn := lengthBeforeName_le hbefore
    simp only [lengthToSkip, lengthToSkipB, hbefore, Option.bind_eq_bind, Option.bind_some,
      Option.pure_def, Option.some.injEq] at h
    rcases h with h | h <;> split_ifs at h <;> omega

/-- What an announced entry sends is what is left of its whole path. -/
private theorem Announced.sentPath_eq (h : Announced src skip ws text) (hlen : src.length < bufferSize)
    (hskip : skip ≤ src.length) : sentPath src skip ws = (src.drop skip) ++ ws.flatMap (slash :: ·) ∧
      (sentPath src skip ws).length + 5 < bufferSize ∧
      (text = lit "FILE " ++ sentPath src skip ws ++ lit "\n" ∨
        text = lit "DIR " ++ sentPath src skip ws ++ lit "\n") := by
  have htext : text = lit "FILE " ++ sentPath src skip ws ++ lit "\n" ∨
      text = lit "DIR " ++ sentPath src skip ws ++ lit "\n" := by
    have hfits := h.fits
    rcases h.isLine with rfl | rfl
    · exact .inl (clip_of_fits (by decide) hfits)
    · exact .inr (clip_of_fits (by decide) hfits)
  have hshort : (sentPath src skip ws).length + 5 < bufferSize := by
    have hfits := h.fits
    rcases htext with rfl | rfl
    · simp [lit] at hfits
      omega
    · simp [lit] at hfits
      omega
  refine ⟨?_, hshort, htext⟩
  have hwalk : (walkPath src ws).length + 1 < maxPathSize := by
    have hbuffer : bufferSize + bufferSize = maxPathSize := rfl
    rw [sentPath, List.length_drop] at hshort
    omega
  rw [sentPath, walkPath_eq_below hwalk, below, List.drop_append_of_le_length hskip]

private theorem withoutDot_eq_or (path : Text) :
    path = withoutDot path ∨ path = lit "./" ++ withoutDot path := by
  unfold withoutDot
  split
  · next h =>
    obtain ⟨t, rfl⟩ := List.isPrefixOf_iff_prefix.mp h
    exact .inr rfl
  · exact .inl rfl

/-- A path is read back exactly if it is one word. -/
private theorem head_fields_iff {path : Text} :
    (∃ name, (fields path).head? = some name ∧ withoutDot name = withoutDot path) ↔
      path ≠ [] ∧ ∀ b ∈ path, isSpace b = false := by
  constructor
  · rintro ⟨name, hname, hsame⟩
    have hword : ∀ b ∈ name, isSpace b = false :=
      noSpace_of_mem_fields (List.mem_of_mem_head? hname)
    have hrest : ∀ b ∈ withoutDot name, isSpace b = false := by
      intro b hb
      apply hword
      rcases withoutDot_eq_or name with heq | heq
      · rwa [heq]
      · rw [heq]
        exact List.mem_append_right _ hb
    constructor
    · rintro rfl
      simp [fields] at hname
    · rw [hsame] at hrest
      intro b hb
      rcases withoutDot_eq_or path with heq | heq
      · exact hrest b (heq ▸ hb)
      · rw [heq] at hb
        rcases List.mem_append.mp hb with hb | hb
        · have hdot : ∀ x ∈ lit "./", isSpace x = false := by simp [lit, isSpace]
          exact hdot b hb
        · exact hrest b hb
  · rintro ⟨hne, hword⟩
    exact ⟨path, by rw [fields_of_noSpace hword hne]; rfl, rfl⟩

/-- Only the names below the source can bring white space into what is sent. -/
private theorem Announced.noSpace_iff (h : Announced src skip ws text) (hsrc : IsWord src)
    (hlen : src.length < bufferSize) (hskip : skip ≤ src.length) :
    (∀ b ∈ sentPath src skip ws, isSpace b = false) ↔ ∀ w ∈ ws, ∀ b ∈ w, isSpace b = false := by
  rw [(h.sentPath_eq hlen hskip).1]
  constructor
  · intro hall w hw b hb
    apply hall
    apply List.mem_append_right
    exact List.mem_flatMap.mpr ⟨w, hw, List.mem_cons_of_mem _ hb⟩
  · intro hall b hb
    rcases List.mem_append.mp hb with hb | hb
    · exact (hsrc b (List.mem_of_mem_drop hb)).1
    · rcases List.mem_flatMap.mp hb with ⟨w, hw, hb⟩
      rcases List.mem_cons.mp hb with rfl | hb
      · decide
      · exact hall w hw b hb

private theorem Announced.noNul (h : Announced src skip ws text) (hsrc : IsWord src)
    (hlen : src.length < bufferSize) (hskip : skip ≤ src.length) : 0 ∉ sentPath src skip ws := by
  rw [(h.sentPath_eq hlen hskip).1]
  intro hb
  rcases List.mem_append.mp hb with hb | hb
  · exact (hsrc 0 (List.mem_of_mem_drop hb)).2 rfl
  · rcases List.mem_flatMap.mp hb with ⟨w, hw, hb⟩
    rcases List.mem_cons.mp hb with hb | hb
    · exact absurd hb (by decide)
    · exact (h.names w hw).noNul hb

private theorem Announced.announcedName_eq (h : Announced src skip ws text) (hsrc : IsWord src)
    (hlen : src.length < bufferSize) (hskip : skip ≤ src.length) :
    announcedName text = (fields (sentPath src skip ws)).head? := by
  have hnul := h.noNul hsrc hlen hskip
  rcases (h.sentPath_eq hlen hskip).2.2 with rfl | rfl
  · exact announcedName_of_line (.inl rfl) hnul
  · exact announcedName_of_line (.inr rfl) hnul

/-- Where an entry goes whose path has arrived: the names are followed from one place. -/
private theorem resolveFrom_fullPath {strips : Bool} {base path : Text} (cwd : List Text)
    (hbase : base ≠ []) (hfits : (base ++ lit "/" ++ path).length < maxPathSize) :
    resolveFrom cwd (fullPath strips base path) = resolveFrom cwd (base ++ slash :: path) := by
  unfold fullPath
  split
  · next hdot =>
    obtain ⟨t, rfl⟩ := List.isPrefixOf_iff_prefix.mp hdot.2
    have hcut : clip maxPathSize (base ++ lit "/" ++ t) = base ++ slash :: t := by
      simp only [List.length_append] at hfits
      have hshort : (base ++ lit "/" ++ t).length ≤ maxPathSize - 1 := by
        simp only [List.length_append]
        omega
      rw [clip, List.take_of_length_le hshort, List.append_assoc]
      rfl
    have htokens : tokens slash (base ++ slash :: (lit "./" ++ t)) =
        tokens slash base ++ lit "." :: tokens slash t := by
      show tokens slash (base ++ slash :: (lit "." ++ slash :: t)) = _
      rw [tokens_append_cons, tokens_append_cons]
      rfl
    obtain ⟨b, base, rfl⟩ := List.exists_cons_of_ne_nil hbase
    show resolveFrom cwd (clip maxPathSize (b :: base ++ lit "/" ++ t)) = _
    rw [hcut]
    unfold resolveFrom
    rw [htokens, tokens_append_cons, List.foldl_append, List.foldl_append]
    rfl
  · have hcut : clip maxPathSize (base ++ lit "/" ++ path) = base ++ slash :: path := by
      rw [clip, List.take_of_length_le (by omega), List.append_assoc]
      rfl
    rw [hcut]

/-- An announced path is read back exactly if it is not empty and no name on the way to the entry
contains white space. Entries whose paths are read back go to different places. -/
theorem names_survive_iff (strips : Bool) (base : Text) {lcopy : Bool} {dest : Text} {kind : Kind}
    (hsrc : IsWord src) (hlen : src.length < bufferSize)
    (hskip : lengthToSkip lcopy src dest kind = some skip ∨ lengthToSkipB src dest kind = some skip)
    (hbase : base ≠ []) (hbaseLen : base.length < bufferSize) :
    (∀ ws text, Announced src skip ws text → (Survives src skip ws text ↔
      sentPath src skip ws ≠ [] ∧ ∀ w ∈ ws, ∀ b ∈ w, isSpace b = false)) ∧
    ∀ (cwd : List Text) (ws ws' : List Text) (text text' name name' : Text),
      Announced src skip ws text → Announced src skip ws' text' → Survives src skip ws text →
      Survives src skip ws' text' → announcedName text = some name →
      announcedName text' = some name' → ws ≠ ws' →
      resolveFrom cwd (fullPath strips base name) ≠ resolveFrom cwd (fullPath strips base name') := by
  have hle := skip_le_length hskip
  have hiff : ∀ ws text, Announced src skip ws text → (Survives src skip ws text ↔
      sentPath src skip ws ≠ [] ∧ ∀ w ∈ ws, ∀ b ∈ w, isSpace b = false) := by
    intro ws text h
    rw [Survives, h.announcedName_eq hsrc hlen hle, head_fields_iff, h.noSpace_iff hsrc hlen hle]
  refine ⟨hiff, ?_⟩
  intro cwd ws ws' text text' name name' h h' hs hs' hname hname' hne
  have hplace : ∀ {ws text name}, Announced src skip ws text → Survives src skip ws text →
      announcedName text = some name → resolveFrom cwd (fullPath strips base name) =
        resolveFrom cwd (base ++ slash :: src.drop skip) ++ ws := by
    intro ws text name h hs hname
    have hsent := h.sentPath_eq hlen hle
    have hcond := (hiff ws text h).mp hs
    have hword := (h.noSpace_iff hsrc hlen hle).mpr hcond.2
    have hwhole : name = sentPath src skip ws := by
      rw [h.announcedName_eq hsrc hlen hle, fields_of_noSpace hword hcond.1] at hname
      exact (Option.some.inj hname).symm
    have hfits : (base ++ lit "/" ++ sentPath src skip ws).length < maxPathSize := by
      have hshort := hsent.2.1
      have hbuffer : bufferSize + bufferSize = maxPathSize := rfl
      simp only [List.length_append]
      simp only [lit]
      simp
      omega
    have hbelow : base ++ slash :: (src.drop skip ++ ws.flatMap (slash :: ·)) =
        below (base ++ slash :: src.drop skip) ws := by
      simp [below]
    rw [hwhole, resolveFrom_fullPath cwd hbase hfits, hsent.1, hbelow,
      resolveFrom_below (by simp) h.names]
  rw [hplace h hs hname, hplace h' hs' hname']
  exact fun heq ↦ hne (List.append_cancel_left heq)

end Survival

private theorem announced_sample {ws : List Text}
    (hnames : ∀ w ∈ ws, w ∈ [lit "sub", lit "a", lit "b", lit "a b"])
    (hfits : (fileLine (sentPath (lit "./s") 2 ws)).length < bufferSize) :
    Announced (lit "./s") 2 ws (fileLine (sentPath (lit "./s") 2 ws)) := by
  have hname : ∀ w ∈ [lit "sub", lit "a", lit "b", lit "a b"],
      w ≠ [] ∧ slash ∉ w ∧ 0 ∉ w ∧ w ≠ lit "." ∧ w ≠ lit ".." := by
    decide
  refine ⟨fun w hw ↦ ?_, .inl rfl, hfits⟩
  obtain ⟨h₁, h₂, h₃, h₄, h₅⟩ := hname w (hnames w hw)
  exact ⟨h₁, h₂, h₃, h₄, h₅⟩

/-- The line of a file in the folder `sub` of `./s`. -/
private def nestedLine (name : Text) : Text := fileLine (sentPath (lit "./s") 2 [lit "sub", name])

/-- Two files of a folder below the copied one are read back, and go to different places. -/
theorem names_survive_nested :
    Survives (lit "./s") 2 [lit "sub", lit "a"] (nestedLine (lit "a")) ∧
      Survives (lit "./s") 2 [lit "sub", lit "b"] (nestedLine (lit "b")) ∧
      announcedName (nestedLine (lit "a")) = some (lit "s/sub/a") ∧
      announcedName (nestedLine (lit "b")) = some (lit "s/sub/b") ∧
      ∀ cwd, resolveFrom cwd (fullPath true (lit "./d") (lit "s/sub/a")) ≠
        resolveFrom cwd (fullPath true (lit "./d") (lit "s/sub/b")) := by
  have hskip : lengthToSkip false (lit "./s") (lit "./d") .folder = some 2 := by decide
  obtain ⟨hsurvives, hplaces⟩ := names_survive_iff true (lit "./d") (by decide) (by decide)
    (.inl hskip) (by decide) (by decide)
  have ha : Announced (lit "./s") 2 [lit "sub", lit "a"] (nestedLine (lit "a")) :=
    announced_sample (by decide) (by decide)
  have hb : Announced (lit "./s") 2 [lit "sub", lit "b"] (nestedLine (lit "b")) :=
    announced_sample (by decide) (by decide)
  have ha' : Survives (lit "./s") 2 [lit "sub", lit "a"] (nestedLine (lit "a")) :=
    (hsurvives _ _ ha).mpr (by decide +kernel)
  have hb' : Survives (lit "./s") 2 [lit "sub", lit "b"] (nestedLine (lit "b")) :=
    (hsurvives _ _ hb).mpr (by decide +kernel)
  have hnamea : announcedName (nestedLine (lit "a")) = some (lit "s/sub/a") := by decide
  have hnameb : announcedName (nestedLine (lit "b")) = some (lit "s/sub/b") := by decide
  exact ⟨ha', hb', hnamea, hnameb, fun cwd ↦
    hplaces cwd _ _ _ _ _ _ ha hb ha' hb' hnamea hnameb (by decide)⟩

/-- A file `a b` of a copied folder arrives as `a`, which is another one. -/
theorem name_with_blank_is_cut :
    (¬ ∀ (src : Text) (skip : Nat) (dest : Text) (kind : Kind) (ws : List Text) (text : Text),
      IsWord src → src.length < bufferSize → lengthToSkip false src dest kind = some skip →
      Announced src skip ws text → Survives src skip ws text) ∧
    announcedName (fileLine (sentPath (lit "./s") 2 [lit "a b"])) =
      announcedName (fileLine (sentPath (lit "./s") 2 [lit "a"])) := by
  constructor
  · intro hall
    have hsurvives := hall (lit "./s") 2 (lit "./d") .folder [lit "a b"] _ (by decide) (by decide)
      (by decide) (announced_sample (by decide) (by decide))
    rcases hsurvives with ⟨name, hname, hsame⟩
    have hcut : announcedName (fileLine (sentPath (lit "./s") 2 [lit "a b"])) =
        some (lit "s/a") := by decide
    rw [hcut] at hname
    cases hname
    revert hsame
    decide
  · decide

end NetworkFileSystem.Transfer
