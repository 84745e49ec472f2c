import NetworkFileSystem.Transfer.Lockstep

/-!
# Copies are exact

`helper.c:774–1076`. A copy between two storage servers on real disks: where each entry
goes, and what the receiver's disk holds in the end.
-/

namespace NetworkFileSystem.Transfer

open Base Protocol Storage

/-! ### Where entries go -/

theorem lengthBeforeName_eq {pre name : Text} (h : slash ∉ name) :
    lengthBeforeName (pre ++ slash :: name) = some (pre.length + 1) := by
  rw [lengthBeforeName, if_pos (by simp), afterLast_append_cons h]
  simp
  omega

/-- The name of the source is sent, with or without what stands before it. -/
theorem skip_lt_length {lcopy : Bool} {src pre name dest : Text} {kind : Kind} {skip : Nat}
    (hsplit : src = pre ++ slash :: name) (hslash : slash ∉ name) (hname : name ≠ [])
    (h : lengthToSkip lcopy src dest kind = some skip) : skip < src.length := by
  have hpos := List.length_pos_iff.mpr hname
  rw [hsplit, lengthToSkip, lengthBeforeName_eq hslash] at h
  simp only [Option.bind_eq_bind, Option.bind_some, Option.pure_def, Option.some.injEq] at h
  rw [hsplit, List.length_append, List.length_cons]
  split at h
  · omega
  · split at h
    · omega
    · omega

/-- What follows the leading part of a source path is not taken for a path of its own. -/
theorem startsWith_dot_below {name : Text} (h : FileName name) (ws : List Text) :
    startsWith (lit "./") (below name ws) = false := by
  match name, h with
  | [], h => exact absurd rfl h.ne_nil
  | [b], h =>
    have hb : b ≠ 46 := fun hb ↦ h.ne_dot (by rw [hb]; rfl)
    simp [startsWith, below, lit, List.isPrefixOf, Ne.symm hb]
  | b :: c :: rest, h =>
    have hc : c ≠ 47 := fun hc ↦ h.noSlash (by simp [hc, slash])
    simp [startsWith, below, lit, List.isPrefixOf, Ne.symm hc]

/-- The path at which an entry arrives, if it fits its buffer. -/
theorem fullPath_below {base name : Text} (h : FileName name) {ws : List Text} {sent : Text}
    (hsent : sent = below name ws ∨ sent = lit "./" ++ below name ws)
    (hfits : (below base (name :: ws)).length < maxPathSize) :
    fullPath true base sent = below base (name :: ws) := by
  have hpath : base ++ lit "/" ++ below name ws = below base (name :: ws) := by
    simp [below, lit, slash]
  have hstrip : (if (true : Bool) = true ∧ startsWith (lit "./") sent = true then sent.drop 2
      else sent) = below name ws := by
    obtain rfl | rfl := hsent
    · rw [if_neg (by simp [startsWith_dot_below h])]
    · rw [if_pos ⟨rfl, rfl⟩]
      rfl
  rw [fullPath, hstrip, hpath]
  exact List.take_of_length_le (by omega)

/-- A source path of the form `./…/name`. -/
structure SourcePath (src pre name : Text) : Prop where
  split : src = pre ++ slash :: name
  relative : startsWith (lit "./") src = true
  name : FileName name

/-- What is sent of the paths at and below a source, whether or not its leading part is
skipped. -/
theorem SourcePath.sent {src pre name dest : Text} (h : SourcePath src pre name) {kind : Kind}
    {skip : Nat} (hskip : lengthToSkip false src dest kind = some skip) (ws : List Text) :
    (below src ws).drop skip = below name ws ∨
      (below src ws).drop skip = lit "./" ++ below name ws := by
  obtain ⟨rfl, hrel, hname⟩ := h
  rw [lengthToSkip, lengthBeforeName_eq hname.noSlash] at hskip
  simp only [Option.bind_eq_bind, Option.bind_some, Bool.false_eq_true, and_false, if_false,
    Option.pure_def, Option.some.injEq] at hskip
  split at hskip
  · next htwo =>
    obtain ⟨b, rfl⟩ := List.length_eq_one_iff.mp (show pre.length = 1 by omega)
    have hb : b = 46 := by
      obtain ⟨t, ht⟩ := List.isPrefixOf_iff_prefix.mp hrel
      exact (List.cons.inj ht).1.symm
    subst hb hskip
    exact .inr (by simp [below, lit, slash])
  · subst hskip
    refine .inl ?_
    have hsplit : below (pre ++ slash :: name) ws = pre ++ [slash] ++ below name ws := by
      simp [below]
    rw [hsplit]
    exact List.drop_left' (by simp)

/-! ### Disks -/

/-- Copies to a real disk: no call fails, other than `mkdir` of a folder that is there. -/
def onDisk (source : Text → Option Node) (cwd : List Text) : Setting FileSystem where
  source := source
  changes := Eq
  mkdir := fun path r fs fs' ↦
    (r = true ∧ Call.mkdir.Effect (resolveFrom cwd path) fs fs') ∨
      (r = false ∧ fs.entry (resolveFrom cwd path) = some .folder ∧ fs' = fs)
  fopen := fun path _ r fs fs' ↦ r = true ∧ Call.create.Effect (resolveFrom cwd path) fs fs'
  write := fun path t r fs fs' ↦ r = true ∧ ∃ u,
    fs.entry (resolveFrom cwd path) = some (.file u) ∧
      fs'.entry = Function.update fs.entry (resolveFrom cwd path) (some (.file (u ++ t)))

/-- An entry may be stored in its folder unless one of the other kind is there. -/
def Fits (fs : FileSystem) (place : List Text) (e : Entry) : Prop :=
  ∀ old, fs.entry place = some old → (old = .folder ↔ e = .folder)

section Disk

variable {source : Text → Option Node} {cwd dir : List Text} {fs fs' : FileSystem} {path name : Text}

private theorem onDisk_mkdir_some (hplace : resolveFrom cwd path = dir ++ [name])
    (hdir : fs.entry dir = some .folder) (hfits : Fits fs (dir ++ [name]) .folder) :
    ∃ r fs', (onDisk source cwd).mkdir path r fs fs' := by
  cases hold : fs.entry (dir ++ [name]) with
  | none =>
    refine ⟨true, fs.put dir name .folder hdir (fun _ ↦ rfl), .inl ⟨rfl, ?_, ?_⟩⟩
    · rw [hplace, hold]
    · rw [hplace]
      rfl
  | some old =>
    refine ⟨false, fs, .inr ⟨rfl, ?_, rfl⟩⟩
    rw [hplace, hold, (hfits old hold).mpr rfl]

theorem onDisk_mkdir {r : Bool} (h : (onDisk source cwd).mkdir path r fs fs') :
    fs'.entry = Function.update fs.entry (resolveFrom cwd path) (some .folder) := by
  obtain ⟨-, -, hentry⟩ | ⟨-, hold, rfl⟩ := h
  · exact hentry
  · rw [← hold, Function.update_eq_self]

theorem onDisk_fopen_some {n : Int} {t : Text}
    (hplace : resolveFrom cwd path = dir ++ [name]) (hdir : fs.entry dir = some .folder)
    (hfits : Fits fs (dir ++ [name]) (.file t)) :
    ∃ r fs', (onDisk source cwd).fopen path n r fs fs' := by
  have hkind : fs.entry (dir ++ [name]) ≠ some .folder := by
    intro hold
    exact absurd ((hfits _ hold).mp rfl) (by simp)
  refine ⟨true, fs.put dir name (.file []) hdir (fun h ↦ absurd h hkind), rfl, ?_, ?_⟩
  · rwa [hplace]
  · rw [hplace]
    rfl

/-- A file whose bytes `u` are written already takes the rest `t`. -/
theorem onDisk_writing {Q : FileSystem → Prop} {fuel : Nat} {u t : Text}
    (hplace : resolveFrom cwd path = dir ++ [name]) (hfile : fs.entry (dir ++ [name]) = some (.file u))
    (hfuel : t.length ≤ fuel)
    (hQ : ∀ fs', fs'.entry = Function.update fs.entry (dir ++ [name]) (some (.file (u ++ t))) →
      Q fs') :
    (onDisk source cwd).Writing path Q fuel t fs := by
  induction fuel generalizing fs u t with
  | zero =>
    cases List.length_eq_zero_iff.mp (Nat.le_zero.mp hfuel)
    apply hQ fs
    rw [List.append_nil, ← hfile, Function.update_eq_self]
  | succ fuel ih =>
    unfold Setting.Writing
    split
    · next hnil =>
      subst hnil
      apply hQ fs
      rw [List.append_nil, ← hfile, Function.update_eq_self]
    · next hnil =>
      have hpos := List.length_pos_iff.mpr hnil
      have hdir : fs.entry dir = some .folder := fs.parent dir name (by simp [hfile])
      constructor
      · refine ⟨true, fs.put dir name (.file (u ++ t.take bufferSize)) hdir (by simp [hfile]),
          rfl, u, ?_, ?_⟩
        · rw [hplace, hfile]
        · rw [hplace]
          rfl
      · rintro r fs₁ ⟨rfl, u', hu', hfs₁⟩
        rw [hplace, hfile, Option.some.injEq, Entry.file.injEq] at hu'
        subst hu'
        rw [hplace] at hfs₁
        refine ⟨rfl, ih (u := u ++ t.take bufferSize) (by simp [hfs₁]) ?_ ?_⟩
        · rw [List.length_drop]
          simp only [bufferSize]
          omega
        · intro fs₂ hfs₂
          apply hQ
          rw [hfs₂, hfs₁, Function.update_idem, List.append_assoc, List.take_append_drop]

/-- The entries of a folder have different names, and so have those of the folders in it. -/
def Distinct : Listing → Prop
  | .done => True
  | .file name _ rest => name ∉ names rest ∧ Distinct rest
  | .folder name sub rest => name ∉ names rest ∧ Distinct sub ∧ Distinct rest

private theorem head_mem_names {l : Listing} {p : List Text} {e : Entry} (h : l.Has p e) :
    ∃ n q, p = n :: q ∧ n ∈ names l := by
  induction l with
  | done => exact h.elim
  | file name t rest ih =>
    obtain ⟨rfl, -⟩ | h := h
    · exact ⟨name, [], rfl, by simp [names]⟩
    · obtain ⟨n, q, rfl, hn⟩ := ih h
      exact ⟨n, q, rfl, by simp [names, hn]⟩
  | folder name sub rest _ ih =>
    obtain ⟨rfl, -⟩ | ⟨q, rfl, -⟩ | h := h
    · exact ⟨name, [], rfl, by simp [names]⟩
    · exact ⟨name, q, rfl, by simp [names]⟩
    · obtain ⟨n, q, rfl, hn⟩ := ih h
      exact ⟨n, q, rfl, by simp [names, hn]⟩

/-- What the listing shows is put into the folder `dir`, and everything else is kept. -/
structure Overlaid (dir : List Text) (l : Listing) (fs fs' : FileSystem) : Prop where
  stored : ∀ p e, l.Has p e → fs'.entry (dir ++ p) = some e
  kept : ∀ q, (∀ p e, l.Has p e → q ≠ dir ++ p) → fs'.entry q = fs.entry q

/-- Entries behind another one are elsewhere. -/
private theorem ne_of_rest {rest : Listing} {n : Text} (hn : n ∉ names rest) {p q : List Text}
    {e : Entry} (h : rest.Has p e) : dir ++ p ≠ dir ++ n :: q := by
  obtain ⟨m, p, rfl, hm⟩ := head_mem_names h
  intro heq
  obtain ⟨rfl, -⟩ := List.cons.inj (List.append_cancel_left heq)
  exact hn hm

/-- The entries of a folder are stored where their paths lead. -/
private theorem onDisk_storing {target : Text → Text} {src : Text} {us : List Text}
    {Q : FileSystem → Prop} (place : List Text) (l : Listing) (hdistinct : Distinct l)
    (hplaced : ∀ p e, l.Has p e →
      resolveFrom cwd (target (below src (us ++ p))) = place ++ us ++ p)
    (hdir : fs.entry (place ++ us) = some .folder)
    (hfits : ∀ p e, l.Has p e → Fits fs (place ++ us ++ p) e)
    (hQ : ∀ fs', Overlaid (place ++ us) l fs fs' → Q fs') :
    (onDisk source cwd).Storing target (below src us) l Q fs := by
  induction l generalizing us fs Q with
  | done => exact hQ fs ⟨fun _ _ h ↦ h.elim, fun _ _ ↦ rfl⟩
  | file n t rest ih =>
    obtain ⟨hn, hrest⟩ := hdistinct
    have hwhere := hplaced [n] _ (.inl ⟨rfl, rfl⟩)
    rw [← below_slash] at hwhere
    have hfit : Fits fs (place ++ us ++ [n]) (.file t) := hfits [n] _ (.inl ⟨rfl, rfl⟩)
    rintro t' rfl
    refine ⟨onDisk_fopen_some hwhere hdir hfit, ?_⟩
    rintro r fs₁ ⟨rfl, -, hfs₁⟩
    rw [hwhere] at hfs₁
    rw [if_pos rfl]
    apply onDisk_writing hwhere (u := []) (by simp [hfs₁]) (le_refl _)
    intro fs₂ hfs₂
    have hentry : fs₂.entry = Function.update fs.entry (place ++ us ++ [n]) (some (.file t)) := by
      rw [hfs₂, hfs₁, Function.update_idem, List.nil_append]
    apply ih hrest (fun p e hp ↦ hplaced p e (.inr hp))
    · rw [hentry, Function.update_of_ne (by simp), hdir]
    · intro p e hp
      have hother : place ++ us ++ p ≠ place ++ us ++ [n] := ne_of_rest hn hp
      intro old hold
      rw [hentry, Function.update_of_ne hother] at hold
      exact hfits p e (.inr hp) old hold
    · intro fs' hover
      apply hQ
      constructor
      · rintro p e (⟨rfl, rfl⟩ | hp)
        · rw [hover.kept _ (fun p e hp ↦ (ne_of_rest hn (q := []) hp).symm), hentry,
            Function.update_self]
        · exact hover.stored p e hp
      · intro q hq
        rw [hover.kept q (fun p e hp ↦ hq p e (.inr hp)), hentry,
          Function.update_of_ne (hq [n] _ (.inl ⟨rfl, rfl⟩))]
  | folder n sub rest ihsub ihrest =>
    obtain ⟨hn, hsub, hrest⟩ := hdistinct
    have hwhere := hplaced [n] _ (.inl ⟨rfl, rfl⟩)
    rw [← below_slash] at hwhere
    have hfit : Fits fs (place ++ us ++ [n]) .folder := hfits [n] _ (.inl ⟨rfl, rfl⟩)
    refine ⟨onDisk_mkdir_some hwhere hdir hfit, ?_⟩
    intro r fs₁ hmk
    have hfs₁ := onDisk_mkdir hmk
    rw [hwhere] at hfs₁
    rw [below_slash]
    apply ihsub hsub
    · intro p e hp
      have hdeep := hplaced (n :: p) e (.inr (.inl ⟨p, rfl, hp⟩))
      simpa using hdeep
    · rw [← List.append_assoc, hfs₁, Function.update_self]
    · intro p e hp old hold
      rw [hfs₁, Function.update_of_ne (by simp [Listing.Has.ne_nil hp])] at hold
      rw [← List.append_assoc, List.append_assoc _ [n] p] at hold
      exact hfits (n :: p) e (.inr (.inl ⟨p, rfl, hp⟩)) old hold
    · intro fs₂ hover₂
      apply ihrest hrest (fun p e hp ↦ hplaced p e (.inr (.inr hp)))
      · rw [hover₂.kept _ (by simp), hfs₁, Function.update_of_ne (by simp), hdir]
      · intro p e hp old hold
        rw [hover₂.kept _ ?_, hfs₁, Function.update_of_ne (ne_of_rest hn (q := []) hp)] at hold
        · exact hfits p e (.inr (.inr hp)) old hold
        · intro p' e' _
          rw [← List.append_assoc, List.append_assoc _ [n] p']
          exact ne_of_rest hn hp
      · intro fs' hover
        apply hQ
        constructor
        · rintro p e (⟨rfl, rfl⟩ | ⟨q, rfl, hq⟩ | hp)
          · rw [hover.kept _ (fun p e hp ↦ (ne_of_rest hn (q := []) hp).symm), hover₂.kept _ ?_,
              hfs₁, Function.update_self]
            intro p e hp
            simp [Listing.Has.ne_nil hp]
          · rw [hover.kept _ (fun p e hp ↦ (ne_of_rest hn hp).symm)]
            have hstored := hover₂.stored q e hq
            rwa [← List.append_assoc, List.append_assoc _ [n] q] at hstored
          · exact hover.stored p e hp
        · intro q hq
          rw [hover.kept q (fun p e hp ↦ hq p e (.inr (.inr hp))), hover₂.kept q ?_, hfs₁,
            Function.update_of_ne (hq [n] _ (.inl ⟨rfl, rfl⟩))]
          intro p e hp
          rw [← List.append_assoc, List.append_assoc _ [n] p]
          exact hq (n :: p) e (.inr (.inl ⟨p, rfl, hp⟩))

end Disk

/-! ### Copies -/

/-- The verb of a copy, which the storage server tells `lcopy` from. -/
def copyVerb (lcopy : Bool) : Text := if lcopy then lit "lcopy" else lit "copydifferent"

/-- The command that the naming server sends to the server with the source. -/
def copyCommandText (verb src dest ip : Text) (port : Nat) : Text :=
  verb ++ lit " " ++ src ++ lit " " ++ dest ++ lit " " ++ ip ++ lit " " ++ decimal port

theorem isWord_decimal (n : Nat) : IsWord (decimal n) := by
  intro b hb
  obtain ⟨hlow, hhigh⟩ := digit_of_mem_decimal hb
  constructor
  · simp only [isSpace, Bool.or_eq_false_iff, Bool.and_eq_false_iff, beq_eq_false_iff_ne,
      decide_eq_false_iff_not, UInt8.le_iff_toNat_le, ne_eq, ← UInt8.toNat_inj]
    simp
    omega
  · rintro rfl
    simp at hlow

theorem scansNumber_decimal (n : Nat) : scansNumber (decimal n) = true := by
  obtain ⟨b, rest, hb⟩ := List.exists_cons_of_ne_nil (decimal_ne_nil n)
  obtain ⟨hlow, hhigh⟩ := digit_of_mem_decimal (n := n) (b := b) (by simp [hb])
  have hsign : ¬ (b = 43 ∨ b = 45) := by
    rintro (rfl | rfl)
    · simp at hlow
    · simp at hlow
  simp [scansNumber, hb, hsign, UInt8.le_iff_toNat_le, hlow, hhigh]

theorem length_copyCommandText (verb src dest ip : Text) (port : Nat) :
    (copyCommandText verb src dest ip port).length =
      verb.length + src.length + dest.length + ip.length + (decimal port).length + 4 := by
  simp [copyCommandText, lit]
  omega

/-- The words of a copy command. -/
theorem fields_copyCommandText {verb src dest ip : Text} (hverb : IsWord verb) (hsrc : IsWord src)
    (hdest : IsWord dest) (hip : IsWord ip)
    (hne : verb ≠ [] ∧ src ≠ [] ∧ dest ≠ [] ∧ ip ≠ []) (port : Nat) :
    fields (copyCommandText verb src dest ip port) = [verb, src, dest, ip, decimal port] := by
  have hblank : ∀ t u : Text, fields (t ++ lit " " ++ u) = fields t ++ fields u := by
    intro t u
    rw [List.append_assoc]
    exact fields_append_cons (by decide) t u
  have hone : ∀ t : Text, IsWord t → t ≠ [] → fields t = [t] :=
    fun t ht hne ↦ fields_of_noSpace (fun b hb ↦ (ht b hb).1) hne
  rw [copyCommandText, hblank, hblank, hblank, hblank, hone _ hverb hne.1, hone _ hsrc hne.2.1,
    hone _ hdest hne.2.2.1, hone _ hip hne.2.2.2, hone _ (isWord_decimal port) (decimal_ne_nil port)]
  rfl

theorem scanCopy_copyCommandText {verb src dest ip : Text} (hverb : IsWord verb)
    (hverbNe : verb ≠ []) (hsrc : IsWord src) (hsrcNe : src ≠ []) (hdest : IsWord dest)
    (hdestNe : dest ≠ []) (hip : IsWord ip) (hipNe : ip ≠ []) (port : Nat) :
    scanCopy ((fields (copyCommandText verb src dest ip port)).drop 1) = some (src, dest, ip) := by
  rw [fields_copyCommandText hverb hsrc hdest hip ⟨hverbNe, hsrcNe, hdestNe, hipNe⟩]
  simp [scanCopy, scansNumber_decimal]

/-- The words behind the verb, whether it is read as a word or matched as a literal. -/
theorem fields_drop_verb {verb src dest ip : Text} {port : Nat} (hverb : IsWord verb)
    (hverbNe : verb ≠ []) :
    fields ((copyCommandText verb src dest ip port).drop verb.length) =
      (fields (copyCommandText verb src dest ip port)).drop 1 := by
  obtain ⟨t, ht⟩ : ∃ t, copyCommandText verb src dest ip port = verb ++ blank :: t :=
    ⟨src ++ lit " " ++ dest ++ lit " " ++ ip ++ lit " " ++ decimal port,
      by simp [copyCommandText, lit, blank]⟩
  rw [ht, List.drop_left, fields_blank_cons, fields_append_cons (by decide),
    fields_of_noSpace (fun b hb ↦ (hverb b hb).1) hverbNe]
  rfl

/-- The folder with a node as its only entry. -/
def Node.listing (name : Text) : Node → Listing
  | .file t => .file name t .done
  | .folder l => .folder name l .done

/-- The folders of a node list different names. -/
def Node.Distinct : Node → Prop
  | .file _ => True
  | .folder l => Transfer.Distinct l

theorem Node.has_listing {name : Text} {node : Node} {p : List Text} {e : Entry} :
    (node.listing name).Has p e ↔ ∃ q, p = name :: q ∧ node.Has q e := by
  cases node with
  | file t =>
    simp only [Node.listing, Listing.Has, Node.Has, or_false]
    constructor
    · rintro ⟨rfl, rfl⟩
      exact ⟨[], rfl, rfl, rfl⟩
    · rintro ⟨q, rfl, rfl, rfl⟩
      exact ⟨rfl, rfl⟩
  | folder l =>
    simp only [Node.listing, Listing.Has, Node.Has, or_false]
    constructor
    · rintro (⟨rfl, rfl⟩ | ⟨q, rfl, hq⟩)
      · exact ⟨[], rfl, .inl ⟨rfl, rfl⟩⟩
      · exact ⟨q, rfl, .inr hq⟩
    · rintro ⟨q, rfl, ⟨rfl, rfl⟩ | hq⟩
      · exact .inl ⟨rfl, rfl⟩
      · exact .inr ⟨q, rfl, hq⟩

private theorem Node.distinct_listing {name : Text} {node : Node} (h : node.Distinct) :
    Transfer.Distinct (node.listing name) := by
  cases node with
  | file t => exact ⟨by simp [names], trivial⟩
  | folder l => exact ⟨by simp [names], h, trivial⟩

/-- A node is received like the only entry of a folder. -/
private theorem Node.receiving_of_storing {δ : Type} {S : Setting δ} {target : Text → Text}
    {pre name : Text} {node : Node} {Q : δ → Prop} {d : δ}
    (h : S.Storing target pre (node.listing name) Q d) :
    S.Receiving target (pre ++ lit "/" ++ name) node Q d := by
  have hdone : ∀ dir, S.Storing target dir .done Q = Q := fun _ ↦ rfl
  cases node with
  | file t =>
    intro t' ht'
    have hsaving := h t' ht'
    rwa [hdone] at hsaving
  | folder l =>
    refine ⟨h.1, fun r d' hd' ↦ ?_⟩
    have hstoring := h.2 r d' hd'
    rwa [hdone] at hstoring

/-- A folder is at the place or can be made there. -/
def Makeable (fs : FileSystem) (place : List Text) : Prop :=
  fs.entry place = some .folder ∨
    (fs.entry place = none ∧ ∃ dir n, place = dir ++ [n] ∧ fs.entry dir = some .folder)

/-- The disk `fs'` after a copy: the folder at `place` is there, the source is in it under
`name`, and everything else is as in `fs`. -/
structure Copied (place : List Text) (name : Text) (node : Node) (fs fs' : FileSystem) : Prop where
  made : fs'.entry place = some .folder
  stored : ∀ p e, node.Has p e → fs'.entry (place ++ name :: p) = some e
  kept : ∀ q, q ≠ place → (∀ p e, node.Has p e → q ≠ place ++ name :: p) →
    fs'.entry q = fs.entry q

section Copies

variable {source : Text → Option Node} {cwd : List Text} {src pre name dest : Text} {skip : Nat}
  {node : Node} {fs : FileSystem}

/-- Every entry arrives at its names below the destination. -/
private theorem SourcePath.placed (h : SourcePath src pre name) (hdest : dest ≠ [])
    (hlen : dest.length < bufferSize) (hskip : lengthToSkip false src dest node.kind = some skip)
    (hword : IsWord src) {p : List Text} {e : Entry} (hsent : Sent skip src p e)
    (hspace : ∀ w ∈ p, ∀ b ∈ w, isSpace b = false) :
    resolveFrom cwd (fullPath true dest (firstWord ((below src p).drop skip))) =
      resolveFrom cwd dest ++ name :: p := by
  have hwhich := h.sent hskip p
  have hplain : IsWord ((below src p).drop skip) :=
    fun b hb ↦ isWord_below hword hsent.names hspace b (List.mem_of_mem_drop hb)
  rw [firstWord_of_isWord hplain]
  have hshort : (below name p).length ≤ ((below src p).drop skip).length := by
    obtain hw | hw := hwhich
    · rw [hw]
    · rw [hw, List.length_append]
      omega
  have hline := hsent.length_lt
  have hpath : (below dest (name :: p)).length < maxPathSize := by
    have hsplit : below dest (name :: p) = dest ++ slash :: below name p := by simp [below]
    rw [hsplit]
    simp only [List.length_append, List.length_cons]
    simp only [bufferSize, maxPathSize] at hline hlen ⊢
    omega
  rw [fullPath_below h.name hwhich hpath]
  apply resolveFrom_below hdest
  intro w hw
  obtain rfl | hw := List.mem_cons.mp hw
  · exact h.name
  · exact hsent.names w hw

/-- The destination is made and the source received into it. -/
private theorem onDisk_receiving (hsrc : SourcePath src pre name) (hdistinct : node.Distinct)
    (hplaced : ∀ p e, node.Has p e →
      resolveFrom cwd (fullPath true dest (firstWord ((below src p).drop skip))) =
        resolveFrom cwd dest ++ name :: p)
    (hfits : ∀ p e, node.Has p e → Fits fs (resolveFrom cwd dest ++ name :: p) e) {r : Bool}
    {fs₁ : FileSystem} (hmk : (onDisk source cwd).mkdir dest r fs fs₁) :
    (onDisk source cwd).Receiving (fun path ↦ fullPath true dest (firstWord (path.drop skip))) src node
      (Copied (resolveFrom cwd dest) name node fs) fs₁ := by
  have hfs₁ := onDisk_mkdir hmk
  generalize resolveFrom cwd dest = place at hplaced hfits hfs₁ ⊢
  have hbelow : ∀ q, below pre (name :: q) = below src q := by
    intro q
    rw [hsrc.split]
    simp [below]
  have hsplit : src = pre ++ lit "/" ++ name := by
    rw [hsrc.split]
    simp [lit, slash]
  rw [hsplit]
  apply Node.receiving_of_storing
  rw [← below_nil pre]
  apply onDisk_storing place (node.listing name) (Node.distinct_listing hdistinct)
  · intro p e hp
    obtain ⟨q, rfl, hq⟩ := Node.has_listing.mp hp
    rw [List.nil_append, hbelow, List.append_nil]
    exact hplaced q e hq
  · rw [hfs₁, List.append_nil, Function.update_self]
  · intro p e hp old hold
    obtain ⟨q, rfl, hq⟩ := Node.has_listing.mp hp
    rw [hfs₁, List.append_nil, Function.update_of_ne (by simp)] at hold
    exact hfits q e hq old hold
  · intro fs' hover
    rw [List.append_nil] at hover
    constructor
    · rw [hover.kept place ?_, hfs₁, Function.update_self]
      intro p e hp
      obtain ⟨q, rfl, -⟩ := Node.has_listing.mp hp
      simp
    · intro p e hp
      exact hover.stored (name :: p) e (Node.has_listing.mpr ⟨p, rfl, hp⟩)
    · intro q hne hq
      rw [hover.kept q ?_, hfs₁, Function.update_of_ne hne]
      intro p e hp
      obtain ⟨q', rfl, hq'⟩ := Node.has_listing.mp hp
      exact hq q' e hq'

theorem onDisk_steady : (onDisk source cwd).Steady := by
  intro t
  refine ⟨⟨t, rfl⟩, ?_⟩
  rintro t' rfl
  rfl

private theorem onDisk_makeable (h : Makeable fs (resolveFrom cwd dest)) :
    ∃ r fs', (onDisk source cwd).mkdir dest r fs fs' := by
  obtain h | ⟨hnone, dir, n, hplace, hdir⟩ := h
  · exact ⟨false, fs, .inr ⟨rfl, h, rfl⟩⟩
  · apply onDisk_mkdir_some hplace hdir
    intro old hold
    rw [← hplace, hnone] at hold
    cases hold

/-- A copy of a file or folder between two storage servers. Every run of the two programs, in
whatever pieces the contents arrive, comes to an end with both of them finished and nothing in
flight; then the receiver's disk is its old one with the destination made and an exact copy of
the source in it. -/
theorem copy_is_exact {ip : Text} {port : Nat} (hsrc : SourcePath src pre name)
    (hword : IsWord src) (hdest : dest ≠ []) (hdestWord : IsWord dest) (hip : ip ≠ [])
    (hipWord : IsWord ip) (hipLength : ip.length < 16)
    (hbuffer : (copyCommandText (lit "copydifferent") src dest ip port).length < bufferSize)
    (hskip : lengthToSkip false src dest node.kind = some skip)
    (hsource : node.Each (fun path n ↦ source path = some n) src) (hdistinct : node.Distinct)
    (hsent : ∀ p e, node.Has p e → Sent skip src p e)
    (hspace : ∀ p e, node.Has p e → ∀ w ∈ p, ∀ b ∈ w, isSpace b = false)
    (hmake : Makeable fs (resolveFrom cwd dest))
    (hfits : ∀ p e, node.Has p e → Fits fs (resolveFrom cwd dest ++ name :: p) e) :
    ∃ N, ∀ fuel ≥ N, ∀ g ≥ N,
      Ends (onDisk source cwd).duet.Step (Finished (Copied (resolveFrom cwd dest) name node fs))
        ⟨copyDifferentSrc fuel (copyCommandText (lit "copydifferent") src dest ip port) false,
          copyDifferentDest g, World.start fs⟩ := by
  have hlengths : src.length < bufferSize ∧ dest.length + 6 < bufferSize := by
    have hverb : (lit "copydifferent").length = 13 := by decide
    rw [length_copyCommandText] at hbuffer
    omega
  have hplaced : ∀ p e, node.Has p e →
      resolveFrom cwd (fullPath true dest (firstWord ((below src p).drop skip))) =
        resolveFrom cwd dest ++ name :: p :=
    fun p e hp ↦ hsrc.placed hdest (by omega) hskip hword (hsent p e hp) (hspace p e hp)
  have hne : src ≠ [] := by
    rw [hsrc.split]
    simp
  have hcopies : (onDisk source cwd).Copies
      (scanCopy ((fields (copyCommandText (lit "copydifferent") src dest ip port)).drop 1))
      (lengthToSkip false) true src dest skip node
      (Copied (resolveFrom cwd dest) name node fs) fs :=
    { scans := ⟨ip, scanCopy_copyCommandText (by decide) (by decide) hword hne hdestWord hdest
        hipWord hip port, hipLength⟩
      skips := hskip
      announced := Node.announces_of_sent onDisk_steady hword
        (skip_lt_length hsrc.split hsrc.name.noSlash hsrc.name.ne_nil hskip) hlengths.1 hsource
        hsent
      sendable := sendable_of_isWord hdestWord hdest (by simp [lit]; omega)
      destination := firstWord_of_isWord hdestWord
      made := onDisk_makeable hmake
      received := fun r fs₁ hmk ↦ onDisk_receiving hsrc hdistinct hplaced hfits hmk }
  refine ⟨max node.fuelFor (node.announcements + 1), fun fuel hfuel g hg ↦ ?_⟩
  apply Inevitable.ends (Setting.finished_final _ _)
  exact hcopies.leads (by omega) (by omega)

end Copies

/-- A folder with a file and an empty folder. -/
private def sampleNode : Node :=
  .folder (.file (lit "f") (lit "hi") (.folder (lit "e") .done .done))

/-- A disk with that folder at `./d`. -/
private def sampleSource (path : Text) : Option Node :=
  if path = lit "./d" then some sampleNode
  else if path = lit "./d/f" then some (.file (lit "hi"))
  else if path = lit "./d/e" then some (.folder .done)
  else none

private theorem sampleNode_has {p : List Text} {e : Entry} (h : sampleNode.Has p e) :
    (p = [] ∧ e = .folder) ∨ (p = [lit "f"] ∧ e = .file (lit "hi")) ∨
      (p = [lit "e"] ∧ e = .folder) := by
  simpa [sampleNode, Node.Has, Listing.Has] using h

private theorem sample_sent {p : List Text} {e : Entry} (h : sampleNode.Has p e) :
    Sent 2 (lit "./d") p e := by
  have hf : FileName (lit "f") := ⟨by decide, by decide, by decide, by decide, by decide⟩
  have he : FileName (lit "e") := ⟨by decide, by decide, by decide, by decide, by decide⟩
  obtain ⟨rfl, rfl⟩ | ⟨rfl, rfl⟩ | ⟨rfl, rfl⟩ := sampleNode_has h
  · exact ⟨by simp, by decide, by simp⟩
  · refine ⟨?_, by decide, ?_⟩
    · simpa using hf
    · rintro t ⟨⟩
      decide
  · refine ⟨?_, by decide, by simp⟩
    simpa using he

/-- The folder `./d` is copied into a new folder `./x` of an empty disk. -/
theorem copy_is_exact_sample :
    ∃ N, ∀ fuel ≥ N, ∀ g ≥ N,
      Ends (onDisk sampleSource []).duet.Step
        (Finished (Copied [lit "x"] (lit "d") sampleNode FileSystem.empty))
        ⟨copyDifferentSrc fuel (lit "copydifferent ./d ./x 10.0.0.2 4000") false,
          copyDifferentDest g, World.start FileSystem.empty⟩ := by
  have hname : FileName (lit "d") := ⟨by decide, by decide, by decide, by decide, by decide⟩
  have hplace : resolveFrom [] (lit "./x") = [lit "x"] := by decide
  have hcommand : copyCommandText (lit "copydifferent") (lit "./d") (lit "./x") (lit "10.0.0.2")
      4000 = lit "copydifferent ./d ./x 10.0.0.2 4000" := by decide
  have hempty : ∀ p, p ≠ [] → FileSystem.empty.entry p = none := by
    intro p hp
    simp [FileSystem.empty, hp]
  rw [← hcommand, ← hplace]
  have hsrc : SourcePath (lit "./d") (lit ".") (lit "d") := ⟨rfl, by decide, hname⟩
  have hskip : lengthToSkip false (lit "./d") (lit "./x") sampleNode.kind = some 2 := by decide
  apply copy_is_exact hsrc
  · decide
  · decide
  · decide
  · decide
  · decide
  · decide
  · decide
  · exact hskip
  · refine ⟨by decide, ?_, ⟨by decide, trivial, trivial⟩⟩
    decide
  · exact ⟨by decide, by decide, trivial, trivial⟩
  · intro p e h
    exact sample_sent h
  · intro p e h w hw
    obtain ⟨rfl, rfl⟩ | ⟨rfl, rfl⟩ | ⟨rfl, rfl⟩ := sampleNode_has h
    · cases hw
    · obtain rfl := List.mem_singleton.mp hw
      exact fun b hb ↦ ((by decide : IsWord (lit "f")) b hb).1
    · obtain rfl := List.mem_singleton.mp hw
      exact fun b hb ↦ ((by decide : IsWord (lit "e")) b hb).1
  · refine .inr ⟨hempty _ (by rw [hplace]; simp), [], lit "x", hplace, rfl⟩
  · intro p e _ old hold
    rw [hempty _ (by simp)] at hold
    cases hold

end NetworkFileSystem.Transfer
