import NetworkFileSystem.Naming.Containment
import NetworkFileSystem.Naming.Replies
import NetworkFileSystem.Transfer.Exact

/-!
# Two readings of a copy command

`naming_server.c:587–656`, `helper.c:557–563,774–785,1143–1155`, `storage_server.c:364–370,417–590`.
The naming server splits a copy command at blanks and sends it on with a longer verb. The storage
server counts the words of what it gets and scans it once more at white space, behind a verb that
it matches as a literal or skips as a word.
-/

namespace NetworkFileSystem.Cluster

open Base Protocol Storage Naming Transfer Prog

/-- What a copy command asks for. `receivers` is the address of the server that receives, once
for each place that reads it; it is empty within one server. -/
structure CopyOrder where
  src : Text
  dest : Text
  receivers : List (Text × Int)
  deriving DecidableEq

/-! ### The storage server -/

/-- `atoi`, and the value that `%d` stores. -/
def atoi (s : Text) : Int := (atol s).bmod (2 ^ 32)

/-- A copy between servers, from the words `args` of the command and the fields `scanned` behind
its verb. -/
def readBetween (args scanned : List Text) : Option CopyOrder := do
  let ip ← args[3]?
  let port ← args[4]?
  let (src, dest, scannedIp) ← scanCopy scanned
  let scannedPort ← scanned[3]?
  -- `char ip[16]` would be overrun.
  if 16 ≤ scannedIp.length then none
  else some ⟨src, dest, [(ip, atoi port), (scannedIp, atoi scannedPort)]⟩

/-- `sscanf(buffer, "copysame %s %s", src, dest)`, `helper.c:559`. -/
def readWithin : List Text → Option CopyOrder
  | src :: dest :: _ => some ⟨src, dest, []⟩
  | _ => none

/-- What `listen_to_nm` takes out of a copy command. -/
def readCopy (msg : Text) : Option CopyOrder := do
  match ← execute msg with
  | (some .copysame, _) => readWithin (fields (msg.drop 8))
  | (some .copydifferentb, args) => readBetween args (fields (msg.drop 14))
  | (some .copydifferent, args) => readBetween args ((fields msg).drop 1)
  | _ => none

/-! ### The naming server -/

/-- The servers that the two lookups of a copy find, `naming_server.c:617–618`. -/
def copyServers (st : NsState) (src dest : Text) : Option (Nat × Nat) := do
  let i ← st.resolve src
  let j ← { st with cache := st.cacheAfter src }.resolve dest
  pure (i, j)

/-- The receivers that the naming server means. -/
def meantReceivers (st : NsState) (i j : Nat) : List (Text × Int) :=
  if i = j then [] else List.replicate 2 (st.ip j, (st.portClient j : Int))

/-- What the naming server extracts from the line and resolves. -/
def meantOrder (st : NsState) (line : Text) : Option CopyOrder :=
  match words line with
  | _ :: src :: dest :: _ =>
    (copyServers st src dest).map (fun (i, j) ↦ ⟨src, dest, meantReceivers st i j⟩)
  | _ => none

/-- Addresses as `inet_ntoa` and `ntohs` give them. -/
structure Addressed (st : NsState) : Prop where
  ip : ∀ info ∈ st.storageServers, info.ip ≠ [] ∧ IsWord info.ip ∧ info.ip.length < 16
  port : ∀ info ∈ st.storageServers, info.portClient < 2 ^ 16

/-! ### Lines that are read alike -/

/-- The fields that are read in front of the paths if `glued` stands at the verb `copy`. Within
one server the verb is matched as a literal, and so is the one that ends in `b`; else it is
skipped as a word. -/
def gluedFields (same : Bool) (glued : Text) : List Text :=
  if same then fields glued
  else if startsWith (lit "b") glued then fields (glued.drop 1)
  else fields (glued.dropWhile (fun b ↦ !isSpace b))

/-- A line whose paths carry no white space and have in front of them, at the verb, no words but
such as repeat what follows. -/
structure PlainCopy (st : NsState) (verb src dest : Text) (rest : List Text) (i j : Nat) : Prop where
  noSpace : ∀ p ∈ [src, dest], ∀ b ∈ p, isSpace b = false
  within : i = j → rest.length ≤ 2 ∧
    [src, dest] <+: gluedFields true (verb.drop 4) ++ [src, dest]
  between : i ≠ j → rest = [] ∧ ∃ port, scansNumber port = true ∧ atoi port = st.portClient j ∧
    [src, dest, st.ip j, port] <+:
      gluedFields false (verb.drop 4) ++ [src, dest, st.ip j, decimal (st.portClient j)]

/-- `PlainCopy`, for the words and the servers of a line. -/
def PlainLine (st : NsState) (line : Text) : Prop :=
  match words line with
  | verb :: src :: dest :: rest =>
    match copyServers st src dest with
    | some (i, j) => PlainCopy st verb src dest rest i j
    | none => False
  | _ => False

/-! ### What is forwarded -/

/-- A forwarded copy is the rewritten line, sent to the server of the source. -/
theorem forwarded_copy {st : NsState} {line : Text} {tr : List NsEvent} {out : Option NsState}
    (hcopy : startsWith (lit "copy") line = true) (h : Exec (processClient st line) tr out)
    {i : Nat} {msg : Text} {ok : Bool} (hm : (⟨.forward i msg, ok⟩ : NsEvent) ∈ tr) :
    ∃ verb src dest rest j, words line = verb :: src :: dest :: rest ∧
      copyServers st src dest = some (i, j) ∧ j < st.storageServers.length ∧
      copyCommand st line i j = some msg := by
  cases exec_processClient h with
  | listing _ hx => exact absurd hm (not_forward_of_offLink (listAll_offLink hx))
  | copy _ _ hr =>
    cases hr with
    | incomplete _ => simp at hm
    | invalid _ _ => simp at hm
    | overrunsSrc _ _ _ => simp at hm
    | overrunsDest _ _ hs _ => exact absurd hm (not_forward_of_pings (exec_lookup hs).1)
    | unknown _ _ hs hd _ =>
      simp [not_forward_of_pings (exec_lookup hs).1, not_forward_of_pings (exec_lookup hd).1] at hm
    | @performed verb src dest rest _ _ _ _ j _ st₂ _ hw _ hs hd hup hp =>
      simp only [List.mem_append, not_forward_of_pings (exec_lookup hs).1,
        not_forward_of_pings (exec_lookup hd).1, false_or] at hm
      obtain ⟨rfl, hmsg⟩ := hp.forward hm
      obtain ⟨-, hi, hf₁, hc₁⟩ := exec_lookup hs
      obtain ⟨-, hj, hf₂, -⟩ := exec_lookup hd
      have hdest := resolve_of_frozen { st with cache := st.cacheAfter src } hf₁ hc₁ dest
      rw [copyCommand_of_frozen (hf₂.trans hf₁)] at hmsg
      have hlt : j < st.storageServers.length := by
        rw [← length_of_frozen (hf₂.trans hf₁)]
        by_contra hge
        simp [NsState.isUp, List.getElem?_eq_none (Nat.le_of_not_lt hge)] at hup
      refine ⟨verb, src, dest, rest, j, hw, ?_, hlt, hmsg⟩
      simp [copyServers, ← hi, ← hdest, ← hj]
  | pathless _ hno _ => rw [hcopy] at hno; cases hno
  | writeStops _ hno _ _ _ _ => rw [hcopy] at hno; cases hno
  | write _ hno _ _ _ _ _ => rw [hcopy] at hno; cases hno
  | make _ hno _ _ _ _ _ => rw [hcopy] at hno; cases hno
  | remove _ hno _ _ _ _ _ => rw [hcopy] at hno; cases hno
  | read _ hno _ _ _ _ _ _ => rw [hcopy] at hno; cases hno

/-! ### Reading it back -/

/-- A command that takes the branch of a copy is executed if it has room and its words are as
many as are read and stored. -/
private theorem execute_of_branch {buffer : Text} {v : Verb} (hb : branch buffer = some v)
    (hv : v.isBackup = false) (hlen : buffer.length < bufferSize) :
    execute buffer = if (words buffer).length ≤ maxArgs ∧ v.arity ≤ (words buffer).length then
      some (some v, words buffer) else none := by
  unfold execute
  rw [hb]
  simp [readable, hv, hlen]

private theorem branch_copysame (t : Text) : branch (lit "copysame" ++ t) = some .copysame := rfl

private theorem branch_copydifferent (t : Text) : branch (lit "copydifferent" ++ t) =
    some (if startsWith (lit "b") t then .copydifferentb else .copydifferent) := by
  cases t with
  | nil => rfl
  | cons b t =>
    by_cases hb : b = 98
    · subst hb
      rfl
    · have hstart : startsWith (lit "b") (b :: t) = false := startsWith_cons_ne (Ne.symm hb)
      have hlong : startsWith (lit "copydifferentb") (lit "copydifferent" ++ b :: t) = false := by
        have hsplit : startsWith (lit "copydifferentb") (lit "copydifferent" ++ b :: t) =
            startsWith (lit "b") (b :: t) := rfl
        rw [hsplit, hstart]
      rw [hstart]
      simp only [branch, Verb.all, List.find?_cons, Verb.name, hlong]
      rfl

/-- The bytes before the first white space are the rest of the verb's word. -/
private theorem fields_behind_word {p : Text} (hp : ∀ b ∈ p, isSpace b = false) (hne : p ≠ [])
    (g : Text) : (fields (p ++ g)).drop 1 = fields (g.dropWhile (fun b ↦ !isSpace b)) := by
  have hsplit := List.takeWhile_append_dropWhile (p := fun b ↦ !isSpace b) (l := g)
  have hu : ∀ b ∈ p ++ g.takeWhile (fun b ↦ !isSpace b), isSpace b = false := by
    intro b hb
    obtain hb | hb := List.mem_append.mp hb
    · exact hp b hb
    · simpa using List.mem_takeWhile_imp hb
  have hone := fields_of_noSpace hu (by simp [hne])
  cases ht : g.dropWhile (fun b ↦ !isSpace b) with
  | nil =>
    rw [ht, List.append_nil] at hsplit
    rw [← hsplit, hone]
    rfl
  | cons b t =>
    have hb : isSpace b = true := by
      have hhead := List.head?_dropWhile_not (fun b ↦ !isSpace b) g
      simpa [ht] using hhead
    have hfirst : fields (b :: t) = fields t := fields_append_cons hb [] t
    rw [ht] at hsplit
    rw [← hsplit, ← List.append_assoc, fields_append_cons hb, hone, hfirst]
    rfl

/-- Texts are read back out of a split of theirs if they carry no white space. -/
private theorem prefix_fields_iff {glued ps more qs : List Text}
    (hglued : ∀ w ∈ glued, ∀ b ∈ w, isSpace b = false)
    (hmore : ∀ w ∈ more, ∀ b ∈ w, isSpace b = false) (hne : ∀ p ∈ ps, p ≠ []) (hqs : ps ⊆ qs) :
    qs <+: glued ++ (ps.flatMap fields ++ more) ↔
      (∀ p ∈ ps, ∀ b ∈ p, isSpace b = false) ∧ qs <+: glued ++ (ps ++ more) := by
  have hkeep : (∀ p ∈ ps, ∀ b ∈ p, isSpace b = false) → ps.flatMap fields = ps := by
    intro hps
    have hone : ∀ p ∈ ps, fields p = [p] := fun p hp ↦ fields_of_noSpace (hps p hp) (hne p hp)
    rw [List.flatMap_congr hone, List.flatMap_singleton']
  constructor
  · intro h
    have hps : ∀ p ∈ ps, ∀ b ∈ p, isSpace b = false := by
      intro p hp
      have hmem := h.subset (hqs hp)
      simp only [List.mem_append, List.mem_flatMap] at hmem
      obtain hmem | ⟨w, -, hmem⟩ | hmem := hmem
      · exact hglued p hmem
      · exact noSpace_of_mem_fields hmem
      · exact hmore p hmem
    rw [hkeep hps] at h
    exact ⟨hps, h⟩
  · rintro ⟨hps, h⟩
    rwa [hkeep hps]

private theorem readWithin_eq_iff {src dest : Text} {scanned : List Text} :
    readWithin scanned = some ⟨src, dest, []⟩ ↔ [src, dest] <+: scanned := by
  match scanned with
  | [] => simp [readWithin]
  | [_] => simp [readWithin]
  | _ :: _ :: _ => simp [readWithin, List.cons_prefix_cons, eq_comm]

private theorem readBetween_eq_iff {verb src dest ip port : Text} {n : Int} {scanned : List Text}
    (hip : ip.length < 16) (hport : atoi port = n) :
    readBetween [verb, src, dest, ip, port] scanned = some ⟨src, dest, List.replicate 2 (ip, n)⟩ ↔
      ∃ w, scansNumber w = true ∧ atoi w = n ∧ [src, dest, ip, w] <+: scanned := by
  constructor
  · intro h
    match scanned with
    | [] => simp [readBetween, scanCopy] at h
    | [_] => simp [readBetween, scanCopy] at h
    | [_, _] => simp [readBetween, scanCopy] at h
    | [_, _, _] => simp [readBetween, scanCopy] at h
    | a :: b :: c :: w :: more =>
      by_cases hw : scansNumber w = true
      · by_cases hc : 16 ≤ c.length
        · simp [readBetween, scanCopy, hw, hc] at h
        · simp [readBetween, scanCopy, hw, hc, List.replicate] at h
          obtain ⟨rfl, rfl, -, rfl, hn⟩ := h
          exact ⟨w, hw, hn, List.prefix_append [a, b, c, w] more⟩
      · simp [readBetween, scanCopy, hw] at h
  · rintro ⟨w, hw, hn, more, rfl⟩
    simp [readBetween, scanCopy, hw, hn, hport, Nat.not_le_of_lt hip, List.replicate]

/-! ### Both readings -/

private theorem atoi_decimal {n : Nat} (h : n < 2 ^ 16) : atoi (decimal n) = n := by
  have hlong : atol (decimal n ++ []) = n := atol_decimal (by omega) rfl
  rw [List.append_nil] at hlong
  rw [atoi, hlong, Int.bmod_eq_of_le (by omega) (by omega)]

/-- With nothing at the verb it is only the white space and the number of the words. -/
theorem plain_copy_iff {st : NsState} {src dest : Text} {rest : List Text} {i j : Nat}
    (hport : st.portClient j < 2 ^ 16) :
    PlainCopy st (lit "copy") src dest rest i j ↔
      (∀ p ∈ [src, dest], ∀ b ∈ p, isSpace b = false) ∧ (i = j → rest.length ≤ 2) ∧
        (i ≠ j → rest = []) := by
  constructor
  · exact fun h ↦ ⟨h.noSpace, fun he ↦ (h.within he).1, fun hne ↦ (h.between hne).1⟩
  · rintro ⟨hspace, hwithin, hbetween⟩
    refine ⟨hspace, fun he ↦ ⟨hwithin he, List.prefix_refl _⟩, fun hne ↦ ⟨hbetween hne, ?_⟩⟩
    exact ⟨_, scansNumber_decimal _, atoi_decimal hport, List.prefix_refl _⟩

/-- The addresses are short enough for the array that they are printed into. -/
theorem Addressed.receiverAddress_eq {st : NsState} (h : Addressed st) {j : Nat}
    (hj : j < st.storageServers.length) :
    (st.ip j ≠ [] ∧ IsWord (st.ip j) ∧ (st.ip j).length < 16) ∧ st.portClient j < 2 ^ 16 ∧
      receiverAddress st j = blank :: (st.ip j ++ blank :: decimal (st.portClient j)) := by
  have hmem := List.getElem_mem hj
  have hip : st.ip j = st.storageServers[j].ip := by simp [NsState.ip, hj]
  have hport : st.portClient j = st.storageServers[j].portClient := by simp [NsState.portClient, hj]
  have haddress := h.ip _ hmem
  have hnumber := h.port _ hmem
  rw [← hip] at haddress
  rw [← hport] at hnumber
  refine ⟨haddress, hnumber, ?_⟩
  have hlen : (decimal (st.portClient j)).length ≤ 5 :=
    length_decimal_le (by decide) (by omega)
  have hall : lit " " ++ st.ip j ++ lit " " ++ decimal (st.portClient j) =
      blank :: (st.ip j ++ blank :: decimal (st.portClient j)) := by simp [lit, blank]
  have hsize : bufferSize = 1024 := rfl
  rw [Naming.receiverAddress, hall, clip, List.take_of_length_le]
  simp
  omega

section Readings

variable {g t src dest : Text} {rest : List Text}

private theorem fields_rest (h : words t = src :: dest :: rest) :
    fields t = [src, dest].flatMap fields ++ rest.flatMap fields := by
  rw [fields_eq_flatMap, h]
  simp

private theorem ne_nil_of_words (h : words t = src :: dest :: rest) : ∀ p ∈ [src, dest], p ≠ [] := by
  intro p hp
  have hmem : p ∈ words t := by
    rw [h]
    exact List.mem_append_left rest hp
  exact ne_nil_of_mem_tokens hmem

private theorem words_verb (verb : Text) (hverb : blank ∉ verb) (hne : verb ≠ []) (hg : blank ∉ g)
    (t : Text) : words (verb ++ (g ++ blank :: t)) = (verb ++ g) :: words t := by
  rw [← List.append_assoc, words, tokens_append_cons, tokens_of_notMem (by simp [hverb, hg])
    (by simp [hne])]
  rfl

private theorem readCopy_copysame (hg : blank ∉ g) (hw : words t = src :: dest :: rest)
    (hlen : (lit "copysame" ++ (g ++ blank :: t)).length < bufferSize) :
    readCopy (lit "copysame" ++ (g ++ blank :: t)) = some ⟨src, dest, []⟩ ↔
      (∀ p ∈ [src, dest], ∀ b ∈ p, isSpace b = false) ∧ rest.length ≤ 2 ∧
        [src, dest] <+: fields g ++ [src, dest] := by
  have hwords := words_verb (lit "copysame") (by decide) (by decide) hg t
  have hexec := execute_of_branch (branch_copysame (g ++ blank :: t)) rfl hlen
  have hscan : fields ((lit "copysame" ++ (g ++ blank :: t)).drop 8) =
      fields g ++ ([src, dest].flatMap fields ++ rest.flatMap fields) := by
    have hdrop : (lit "copysame" ++ (g ++ blank :: t)).drop 8 = g ++ blank :: t := rfl
    rw [hdrop, fields_append_cons (by decide), fields_rest hw]
  have hsplit : [src, dest] <+: fields g ++ ([src, dest].flatMap fields ++ rest.flatMap fields) ↔
      (∀ p ∈ [src, dest], ∀ b ∈ p, isSpace b = false) ∧
        [src, dest] <+: fields g ++ ([src, dest] ++ rest.flatMap fields) := by
    apply prefix_fields_iff (fun w hw ↦ noSpace_of_mem_fields hw) _ (ne_nil_of_words hw)
    · exact List.Subset.refl [src, dest]
    · intro w hw
      obtain ⟨p, -, hw⟩ := List.mem_flatMap.mp hw
      exact noSpace_of_mem_fields hw
  have hcut : [src, dest] <+: fields g ++ ([src, dest] ++ rest.flatMap fields) ↔
      [src, dest] <+: fields g ++ [src, dest] := by
    rw [← List.append_assoc]
    constructor
    · exact fun h ↦ List.prefix_of_prefix_length_le h (List.prefix_append _ _) (by simp)
    · exact fun h ↦ h.trans (List.prefix_append _ _)
  rw [hwords, hw] at hexec
  by_cases hrest : rest.length ≤ 2
  · rw [if_pos ⟨by simp [maxArgs]; omega, by simp [Verb.arity]⟩] at hexec
    have hread : readCopy (lit "copysame" ++ (g ++ blank :: t)) =
        readWithin (fields ((lit "copysame" ++ (g ++ blank :: t)).drop 8)) := by
      rw [readCopy, hexec]
      rfl
    rw [hread, readWithin_eq_iff, hscan, hsplit, hcut]
    simp [hrest]
  · rw [if_neg (by simp [maxArgs]; omega)] at hexec
    simp [readCopy, hexec, hrest]

/-- The branches of both verbs scan what stands glued to `copy` and what follows. -/
private theorem scanned_copydifferent {tail : Text} {args : List Text} (hargs : args.length = 5)
    (hwords : words (lit "copydifferent" ++ (g ++ blank :: tail)) = args)
    (hlen : (lit "copydifferent" ++ (g ++ blank :: tail)).length < bufferSize) :
    readCopy (lit "copydifferent" ++ (g ++ blank :: tail)) =
      readBetween args (gluedFields false g ++ fields tail) := by
  have hstart : startsWith (lit "b") (g ++ blank :: tail) = startsWith (lit "b") g := by
    cases g with
    | nil => rfl
    | cons b g => rfl
  have hbranch := branch_copydifferent (g ++ blank :: tail)
  rw [hstart] at hbranch
  cases hb : startsWith (lit "b") g with
  | true =>
    obtain ⟨g', rfl⟩ := List.isPrefixOf_iff_prefix.mp hb
    rw [hb] at hbranch
    have hexec := execute_of_branch hbranch rfl hlen
    rw [hwords, if_pos ⟨hargs.le, hargs.ge⟩] at hexec
    have hdrop : (lit "copydifferent" ++ (lit "b" ++ g' ++ blank :: tail)).drop 14 =
        g' ++ blank :: tail := rfl
    have hscan : gluedFields false (lit "b" ++ g') = fields g' := by
      rw [gluedFields, hb]
      rfl
    rw [readCopy, hexec, hscan, ← fields_append_cons (b := blank) (by decide), ← hdrop]
    rfl
  | false =>
    rw [hb] at hbranch
    have hexec := execute_of_branch hbranch rfl hlen
    rw [hwords, if_pos ⟨hargs.le, hargs.ge⟩] at hexec
    have hverb : ∀ b ∈ lit "copydifferent", isSpace b = false := by
      simp [lit, isSpace]
    have hscan : gluedFields false g = (fields (lit "copydifferent" ++ g)).drop 1 := by
      rw [gluedFields, hb, fields_behind_word hverb (by decide)]
      rfl
    have hne : fields (lit "copydifferent" ++ g) ≠ [] := fields_ne_nil (by decide) _
    have hsplit : (fields (lit "copydifferent" ++ (g ++ blank :: tail))).drop 1 =
        gluedFields false g ++ fields tail := by
      rw [← List.append_assoc, fields_append_cons (by decide), hscan, List.drop_append_of_le_length]
      exact List.length_pos_iff.mpr hne
    rw [readCopy, hexec, ← hsplit]
    rfl

private theorem noSpace_of_mem_gluedFields {same : Bool} {w : Text} (h : w ∈ gluedFields same g) :
    ∀ b ∈ w, isSpace b = false := by
  unfold gluedFields at h
  split_ifs at h
  · exact noSpace_of_mem_fields h
  · exact noSpace_of_mem_fields h
  · exact noSpace_of_mem_fields h

private theorem readCopy_copydifferent {ip : Text} {n : Nat} (hg : blank ∉ g)
    (hw : words t = src :: dest :: rest) (hipNe : ip ≠ []) (hip : IsWord ip)
    (hipLength : ip.length < 16) (hn : n < 2 ^ 16)
    (hlen : (lit "copydifferent" ++ (g ++ blank :: (t ++ blank :: (ip ++ blank :: decimal n)))).length <
      bufferSize) :
    readCopy (lit "copydifferent" ++ (g ++ blank :: (t ++ blank :: (ip ++ blank :: decimal n)))) =
        some ⟨src, dest, List.replicate 2 (ip, (n : Int))⟩ ↔
      (∀ p ∈ [src, dest], ∀ b ∈ p, isSpace b = false) ∧ rest = [] ∧
        ∃ port, scansNumber port = true ∧ atoi port = n ∧
          [src, dest, ip, port] <+: gluedFields false g ++ [src, dest, ip, decimal n] := by
  have hdecimal : ∀ b ∈ decimal n, isSpace b = false := fun b hb ↦ (isWord_decimal n b hb).1
  have hipSpace : ∀ b ∈ ip, isSpace b = false := fun b hb ↦ (hip b hb).1
  have hblank : ∀ s : Text, (∀ b ∈ s, isSpace b = false) → blank ∉ s :=
    fun s hs hmem ↦ absurd (hs blank hmem) (by decide)
  generalize htail : t ++ blank :: (ip ++ blank :: decimal n) = tail at hlen ⊢
  have hwordsTail : words tail = src :: dest :: (rest ++ [ip, decimal n]) := by
    rw [← htail, words, tokens_append_cons, tokens_append_cons,
      tokens_of_notMem (hblank ip hipSpace) hipNe,
      tokens_of_notMem (hblank _ hdecimal) (decimal_ne_nil n)]
    change words t ++ _ = _
    rw [hw]
    rfl
  have hfieldsTail : rest = [] → fields tail = [src, dest].flatMap fields ++ [ip, decimal n] := by
    rintro rfl
    rw [← htail, fields_append_cons (by decide), fields_append_cons (by decide), fields_rest hw,
      fields_of_noSpace hipSpace hipNe, fields_of_noSpace hdecimal (decimal_ne_nil n)]
    simp
  have hwords := words_verb (lit "copydifferent") (by decide) (by decide) hg tail
  rw [hwordsTail] at hwords
  by_cases hrest : rest = []
  · have hsplit : ∀ port, [src, dest, ip, port] <+: gluedFields false g ++ fields tail ↔
        (∀ p ∈ [src, dest], ∀ b ∈ p, isSpace b = false) ∧
          [src, dest, ip, port] <+: gluedFields false g ++ [src, dest, ip, decimal n] := by
      intro port
      rw [hfieldsTail hrest]
      apply prefix_fields_iff (fun w hw ↦ noSpace_of_mem_gluedFields hw) _ (ne_nil_of_words hw)
      · exact List.subset_append_left [src, dest] [ip, port]
      · simpa using ⟨hipSpace, hdecimal⟩
    rw [hrest, List.nil_append] at hwords
    rw [scanned_copydifferent rfl hwords hlen, readBetween_eq_iff hipLength (atoi_decimal hn)]
    simp only [hsplit, hrest, true_and]
    constructor
    · rintro ⟨port, hnumber, hvalue, hspace, hpre⟩
      exact ⟨hspace, port, hnumber, hvalue, hpre⟩
    · rintro ⟨hspace, port, hnumber, hvalue, hpre⟩
      exact ⟨port, hnumber, hvalue, hspace, hpre⟩
  · have hlong : ¬ (words (lit "copydifferent" ++ (g ++ blank :: tail))).length ≤ maxArgs := by
      have hpos : 0 < rest.length := List.length_pos_iff.mpr hrest
      rw [hwords]
      simp [maxArgs]
      omega
    have hexec : execute (lit "copydifferent" ++ (g ++ blank :: tail)) = none := by
      unfold execute
      rw [if_neg (fun h ↦ hlong h.2.1)]
    simp [readCopy, hexec, hrest]

/-- A copy command is the line with a longer verb, and an address if it goes between servers. -/
theorem copyCommand_shape {st : NsState} {line verb msg : Text} {i j : Nat}
    (hcopy : startsWith (lit "copy") line = true) (hw : words line = verb :: src :: dest :: rest)
    (hmsg : copyCommand st line i j = some msg) :
    ∃ g t, verb = lit "copy" ++ g ∧ blank ∉ g ∧ words t = src :: dest :: rest ∧
      msg.length < bufferSize ∧
      msg = if i = j then lit "copysame" ++ (g ++ blank :: t)
        else lit "copydifferent" ++ (g ++ blank :: t) ++ receiverAddress st j := by
  have hlen : msg.length < bufferSize := by
    unfold copyCommand at hmsg
    rw [Option.ite_none_right_eq_some, Option.some.injEq] at hmsg
    exact hmsg.2 ▸ hmsg.1
  obtain ⟨g, t, rfl, hdrop, ht⟩ :=
    tokens_eq_cons_of_prefix (by decide) (by decide) (List.isPrefixOf_iff_prefix.mp hcopy) hw
  obtain ⟨-, hnil⟩ | ⟨t, rfl, hwt⟩ := ht
  · cases hnil
  have hg : blank ∉ g := by
    have hverb : lit "copy" ++ g ∈ words line := by
      rw [hw]
      exact List.mem_cons_self
    exact fun hb ↦ notMem_of_mem_tokens hverb (List.mem_append_right _ hb)
  have hlength : (lit "copy").length = 4 := rfl
  rw [hlength] at hdrop
  refine ⟨g, t, rfl, hg, hwt, hlen, ?_⟩
  rw [copyCommand_eq_some hmsg, hdrop]

/-- The words of a rewritten copy are those of the line, and the address. -/
theorem length_words_copyCommand {st : NsState} (hst : Addressed st) {line verb msg : Text}
    {i j : Nat} (hj : j < st.storageServers.length) (hcopy : startsWith (lit "copy") line = true)
    (hw : words line = verb :: src :: dest :: rest) (hmsg : copyCommand st line i j = some msg) :
    (words msg).length = (words line).length + if i = j then 0 else 2 := by
  obtain ⟨g, t, rfl, hg, hwt, -, hshape⟩ := copyCommand_shape hcopy hw hmsg
  obtain ⟨⟨hipNe, hip, -⟩, -, haddr⟩ := hst.receiverAddress_eq hj
  have hblank : ∀ s : Text, IsWord s → blank ∉ s :=
    fun s hs hmem ↦ absurd (hs blank hmem).1 (by decide)
  rw [hw, hshape]
  by_cases hij : i = j
  · rw [if_pos hij, if_pos hij, words_verb (lit "copysame") (by decide) (by decide) hg, hwt]
    rfl
  · have hsplit : lit "copydifferent" ++ (g ++ blank :: t) ++ receiverAddress st j =
        lit "copydifferent" ++ (g ++ blank ::
          (t ++ blank :: (st.ip j ++ blank :: decimal (st.portClient j)))) := by
      rw [haddr]
      simp
    rw [if_neg hij, if_neg hij, hsplit, words_verb (lit "copydifferent") (by decide) (by decide) hg,
      words, tokens_append_cons, tokens_append_cons, tokens_of_notMem (hblank _ hip) hipNe,
      tokens_of_notMem (hblank _ (isWord_decimal _)) (decimal_ne_nil _)]
    change ((_ :: (words t ++ _)).length : Nat) = _
    rw [hwt]
    simp

end Readings

/-- The storage server reads a forwarded copy as the naming server does if and only if the line
is plain. -/
theorem copy_read_alike_iff {st : NsState} (hst : Addressed st) {line : Text} {tr : List NsEvent}
    {out : Option NsState} (hcopy : startsWith (lit "copy") line = true)
    (h : Exec (processClient st line) tr out) {i : Nat} {msg : Text} {ok : Bool}
    (hm : (⟨.forward i msg, ok⟩ : NsEvent) ∈ tr) :
    readCopy msg = meantOrder st line ↔ PlainLine st line := by
  obtain ⟨verb, src, dest, rest, j, hw, hs, hj, hmsg⟩ := forwarded_copy hcopy h hm
  have hmeant : meantOrder st line = some ⟨src, dest, meantReceivers st i j⟩ := by
    unfold meantOrder
    rw [hw]
    simp only [hs, Option.map_some]
  have hplain : PlainLine st line ↔ PlainCopy st verb src dest rest i j := by
    unfold PlainLine
    rw [hw]
    simp only [hs]
  obtain ⟨g, t, rfl, hg, hwt, hlen, hmsg⟩ := copyCommand_shape hcopy hw hmsg
  rw [hmeant, hplain]
  by_cases hij : i = j
  · rw [if_pos hij] at hmsg
    rw [hmsg] at hlen ⊢
    rw [meantReceivers, if_pos hij, readCopy_copysame hg hwt hlen]
    constructor
    · rintro ⟨hspace, hwithin⟩
      exact ⟨hspace, fun _ ↦ hwithin, fun hne ↦ absurd hij hne⟩
    · exact fun hp ↦ ⟨hp.noSpace, hp.within hij⟩
  · obtain ⟨⟨hipNe, hip, hipLength⟩, hport, haddr⟩ := hst.receiverAddress_eq hj
    have hshape : lit "copydifferent" ++ (g ++ blank :: t) ++ receiverAddress st j =
        lit "copydifferent" ++ (g ++ blank ::
          (t ++ blank :: (st.ip j ++ blank :: decimal (st.portClient j)))) := by
      rw [haddr]
      simp
    rw [if_neg hij, hshape] at hmsg
    rw [hmsg] at hlen ⊢
    rw [meantReceivers, if_neg hij, readCopy_copydifferent hg hwt hipNe hip hipLength hport hlen]
    constructor
    · rintro ⟨hspace, hbetween⟩
      exact ⟨hspace, fun he ↦ absurd he hij, fun _ ↦ hbetween⟩
    · exact fun hp ↦ ⟨hp.noSpace, hp.between hij⟩

/-- Two servers register, one with a file and one with an empty folder. -/
private def fileAndFolder : NsProg NsState := do
  let st ← registerStorageServer .initial 4 (lit "10.0.0.1") 4000
    [lit "./s\n./s/a\n@!-Finished Indexing-!@\n"]
  registerStorageServer st 5 (lit "10.0.0.2") 4001 [lit "./t\n@!-Finished Indexing-!@\n"]

/-- A copy from one server to another: the paths are read as they were written, and the file and the
marker behind it go to the address of the second server. -/
theorem copy_read_alike_between :
    ∃ (st : NsState) (tr : List NsEvent) (out : Option NsState),
      Reachable (fun s ↦ s = .initial) NsStep st ∧
      Exec (processClient st (lit "copy ./s/a ./t")) tr out ∧
      (⟨.forward 0 (lit "copydifferent ./s/a ./t 10.0.0.2 4001"), true⟩ : NsEvent) ∈ tr ∧
      meantOrder st (lit "copy ./s/a ./t") =
        some ⟨lit "./s/a", lit "./t", List.replicate 2 (lit "10.0.0.2", 4001)⟩ ∧
      readCopy (lit "copydifferent ./s/a ./t 10.0.0.2 4001") =
        meantOrder st (lit "copy ./s/a ./t") := by
  let tr : List NsEvent := [⟨.ping 0, PingResult.up⟩, ⟨.ping 1, PingResult.up⟩,
    ⟨.forward 0 (lit "copydifferent ./s/a ./t 10.0.0.2 4001"), true⟩, ⟨.recvServer 0, none⟩]
  have hrun : (fileAndFolder.replay []).join.bind (fun st ↦
      ((processClient st (lit "copy ./s/a ./t")).replay tr).map (fun _ ↦
        (st.storageServers.map (fun info ↦ (info.ip, info.portClient)),
          copyServers st (lit "./s/a") (lit "./t"), st.ip 1, st.portClient 1))) =
      some ([(lit "10.0.0.1", 4000), (lit "10.0.0.2", 4001)], some (0, 1), lit "10.0.0.2", 4001) := by
    decide +kernel
  obtain ⟨st, hst, hrest⟩ := Option.bind_eq_some_iff.mp hrun
  obtain ⟨out, hout, hfacts⟩ := Option.map_eq_some_iff.mp hrest
  simp only [Prod.mk.injEq] at hfacts
  obtain ⟨hservers, hcopy, hip, hport⟩ := hfacts
  obtain ⟨st₁, _, _, -, h₁, h₂⟩ :=
    exec_bind_some (exec_of_replay (Option.join_eq_some_iff.mp hst))
  have hserver : ∀ info ∈ st.storageServers, (info.ip, info.portClient) = (lit "10.0.0.1", 4000) ∨
      (info.ip, info.portClient) = (lit "10.0.0.2", 4001) := by
    intro info hinfo
    have hpair := List.mem_map_of_mem (f := fun info ↦ (info.ip, info.portClient)) hinfo
    rw [hservers] at hpair
    simpa using hpair
  have haddr : Addressed st := by
    constructor
    · intro info hinfo
      obtain h | h := hserver info hinfo
      · rw [(Prod.mk.inj h).1]
        decide
      · rw [(Prod.mk.inj h).1]
        decide
    · intro info hinfo
      obtain h | h := hserver info hinfo
      · rw [(Prod.mk.inj h).2]
        decide
      · rw [(Prod.mk.inj h).2]
        decide
  have hwords : words (lit "copy ./s/a ./t") = [lit "copy", lit "./s/a", lit "./t"] := by decide
  have hmeant : meantOrder st (lit "copy ./s/a ./t") =
      some ⟨lit "./s/a", lit "./t", List.replicate 2 (lit "10.0.0.2", 4001)⟩ := by
    simp only [meantOrder, hwords, hcopy, Option.map_some, meantReceivers, hip, hport]
    rfl
  have hplain : PlainLine st (lit "copy ./s/a ./t") := by
    simp only [PlainLine, hwords, hcopy]
    rw [plain_copy_iff (hport ▸ by decide)]
    exact ⟨by decide +kernel, fun he ↦ absurd he (by decide), fun _ ↦ rfl⟩
  have hm : (⟨.forward 0 (lit "copydifferent ./s/a ./t 10.0.0.2 4001"), true⟩ : NsEvent) ∈ tr := by
    simp [tr]
  exact ⟨st, tr, out, .next (.next (.start rfl) (.register h₁)) (.register h₂),
    exec_of_replay hout, hm, hmeant,
    (copy_read_alike_iff haddr (by decide) (exec_of_replay hout) hm).mpr hplain⟩

/-- The registration of a first server with two entries. -/
def twoEntries : NsProg NsState :=
  registerStorageServer .initial 4 (lit "10.0.0.1") 4000
    [lit "./s\n./s/a\n./s/b\n@!-Finished Indexing-!@\n"]

/-- A run on a line behind the registration, with what `f` reads off the tables. -/
theorem twoEntries_run {β : Type} (f : NsState → β) (b : β) {line : Text} {tr : List NsEvent}
    (hrun : ((twoEntries.replay []).join.bind (fun st ↦
      ((processClient st line).replay tr).map (fun _ ↦ (st.roots.length,
        st.storageServers.map (fun info ↦ (info.ip, info.portClient)), f st)))) =
      some (1, [(lit "10.0.0.1", 4000)], b)) :
    ∃ (d : Deployment) (out : Option NsState),
      Reachable (fun s ↦ s = Deployment.initial) (Deployment.Step (fun _ _ ↦ True)) d ∧
      Addressed d.tables ∧ Exec (processClient d.tables line) tr out ∧ f d.tables = b := by
  obtain ⟨st, hst, hrest⟩ := Option.bind_eq_some_iff.mp hrun
  obtain ⟨out, hout, hval⟩ := Option.map_eq_some_iff.mp hrest
  simp only [Prod.mk.injEq] at hval
  obtain ⟨hlen, hservers, hmeant⟩ := hval
  have haddr : ∀ info ∈ st.storageServers, info.ip = lit "10.0.0.1" ∧ info.portClient = 4000 := by
    intro info hinfo
    have hpair := List.mem_map_of_mem (f := fun info ↦ (info.ip, info.portClient)) hinfo
    rw [hservers, List.mem_singleton, Prod.mk.injEq] at hpair
    exact hpair
  refine ⟨⟨st, [lit "./s"]⟩, out, .next (.start rfl) (.enroll
    (exec_of_replay (Option.join_eq_some_iff.mp hst)) ?_ ⟨by decide, by decide⟩ ?_), ?_,
    exec_of_replay hout, hmeant⟩
  · rw [hlen]
    decide
  · have hlines : indexedLines [lit "./s\n./s/a\n./s/b\n@!-Finished Indexing-!@\n"] [] =
        [lit "./s", lit "./s/a", lit "./s/b"] := by decide
    intro l hl
    rw [hlines] at hl
    simp only [List.mem_cons, List.not_mem_nil, or_false] at hl
    obtain rfl | rfl | rfl := hl
    · exact .inl rfl
    · exact .inr (by decide)
    · exact .inr (by decide)
  · constructor
    · intro info hinfo
      rw [(haddr info hinfo).1]
      decide
    · intro info hinfo
      rw [(haddr info hinfo).2]
      decide

/-- The events of a copy within the first server that stays without an answer. -/
private def unanswered (msg : Text) : List NsEvent :=
  [⟨.ping 0, PingResult.up⟩, ⟨.ping 0, PingResult.up⟩, ⟨.forward 0 msg, true⟩,
    ⟨.recvServer 0, none⟩]

/-- The storage server reads the `x` behind the verb of `copyx ./s/a ./s/b` as the source. -/
theorem glued_word_is_source :
    ¬ ∀ d : Deployment,
      Reachable (fun s ↦ s = Deployment.initial) (Deployment.Step (fun _ _ ↦ True)) d →
      Addressed d.tables → ∀ line tr out, startsWith (lit "copy") line = true →
      Exec (processClient d.tables line) tr out → ∀ i msg ok, (⟨.forward i msg, ok⟩ : NsEvent) ∈ tr →
        readCopy msg = meantOrder d.tables line := by
  intro hall
  obtain ⟨d, out, hreach, haddr, hx, hmeant⟩ := twoEntries_run
    (fun st ↦ meantOrder st (lit "copyx ./s/a ./s/b")) (some ⟨lit "./s/a", lit "./s/b", []⟩)
    (by decide +kernel : ((twoEntries.replay []).join.bind (fun st ↦
      ((processClient st (lit "copyx ./s/a ./s/b")).replay
        (unanswered (lit "copysamex ./s/a ./s/b"))).map (fun _ ↦ (st.roots.length,
          st.storageServers.map (fun info ↦ (info.ip, info.portClient)),
            meantOrder st (lit "copyx ./s/a ./s/b"))))) = _)
  have hread := hall d hreach haddr _ _ out (by decide) hx 0 (lit "copysamex ./s/a ./s/b") true
    (by simp [unanswered])
  rw [hmeant] at hread
  exact absurd hread (by decide)

end NetworkFileSystem.Cluster
