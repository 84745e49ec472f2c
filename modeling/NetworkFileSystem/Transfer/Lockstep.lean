import NetworkFileSystem.Transfer.World

/-!
# Sender and receiver in lockstep

`helper.c:760–1198`. What every joint run of the two programs comes to. Calls that are
ready are taken at once, so it is enough to follow one order; the rules below take one
call each, and the results about files and folders are put together from them.
-/

namespace NetworkFileSystem.Transfer

open Base Protocol Storage

variable {δ α β : Type}

/-- Every run of the two programs from the world `w` comes to a state of `P`. -/
def Setting.Leads (S : Setting δ)
    (P : Duet.State SendOp RecvOp SendOp.Res RecvOp.Res (World δ) α β → Prop)
    (p : SendProg α) (q : RecvProg β) (w : World δ) : Prop :=
  Inevitable S.duet.Step P ⟨p, q, w⟩

/-- States of `P` are final. -/
def Setting.Final (S : Setting δ)
    (P : Duet.State SendOp RecvOp SendOp.Res RecvOp.Res (World δ) α β → Prop) : Prop :=
  ∀ s t, P s → ¬ S.duet.Step s t

section Rules

variable {S : Setting δ}
  {P : Duet.State SendOp RecvOp SendOp.Res RecvOp.Res (World δ) α β → Prop}
  {w : World δ} {γ : Type}

/-- The sender performs a call that is ready. -/
theorem Setting.Final.sender (hP : S.Final P) {o : SendOp} {k : o.Res → SendProg α}
    {q : RecvProg β} (hready : S.readySend o w)
    (hall : ∀ r w', S.answerSend o r w w' → S.Leads P (k r) q w') :
    S.Leads P (sendCall o >>= k) q w :=
  S.independent.first hP hready hall

/-- The receiver performs a call that is ready. -/
theorem Setting.Final.receiver (hP : S.Final P) {o : RecvOp} {k : o.Res → RecvProg β}
    {p : SendProg α} (hready : S.readyRecv o w)
    (hall : ∀ r w', S.answerRecv o r w w' → S.Leads P p (k r) w') :
    S.Leads P p (recvCall o >>= k) w :=
  S.independent.second hP hready hall

theorem Setting.Final.send (hP : S.Final P) {x : Packet} {k : Bool → SendProg α}
    {q : RecvProg β} (h : S.Leads P (k true) q { w with down := w.down ++ x.items }) :
    S.Leads P (sendCall (.send x) >>= k) q w := by
  apply hP.sender (o := .send x) trivial
  rintro _ _ ⟨rfl, rfl⟩
  exact h

theorem Setting.Final.acked (hP : S.Final P) {k : Bool → SendProg α} {q : RecvProg β}
    (hup : w.up = [ackText]) (h : S.Leads P (k true) q { w with up := [] }) :
    S.Leads P (receiveAck >>= k) q w := by
  unfold receiveAck
  rw [bind_assoc]
  apply hP.sender
  · simp [Setting.readySend, hup]
  · rintro r _ ⟨rest, hr, rfl⟩
    rw [hup, List.cons.injEq] at hr
    obtain ⟨rfl, rfl⟩ := hr
    have hack : (cstr ackText == ackText) = true := by decide
    rw [pure_bind, hack]
    exact h

theorem Setting.Final.stat (hP : S.Final P) {path : Text} {k : Option Kind → SendProg α}
    {q : RecvProg β} (h : S.Leads P (k ((S.source path).map Node.kind)) q w) :
    S.Leads P (sendCall (.stat path) >>= k) q w := by
  apply hP.sender (o := .stat path) trivial
  rintro _ _ ⟨rfl, rfl⟩
  exact h

theorem Setting.Final.opendir (hP : S.Final P) {path : Text} {l : Listing}
    {k : Option (List Text) → SendProg α} {q : RecvProg β}
    (hl : S.source path = some (.folder l)) (hdots : ∀ n ∈ names l, isDots n = false)
    (h : ∀ ns : List Text, ns.filter (fun n ↦ !isDots n) = names l →
      S.Leads P (k (some ns)) q w) :
    S.Leads P (sendCall (.opendir path) >>= k) q w := by
  apply hP.sender
  · intro l' hl'
    rw [hl] at hl'
    cases hl'
    exact hdots
  · rintro _ _ ⟨rfl, ⟨l', ns, hl', rfl, hns⟩ | ⟨hno, -⟩⟩
    · rw [hl] at hl'
      cases hl'
      exact h ns hns
    · exact absurd hl (hno l)

theorem Setting.Final.openFile (hP : S.Final P) {path t : Text} {k : Bool → SendProg α}
    {q : RecvProg β} (ht : S.source path = some (.file t))
    (h : S.Leads P (k true) q { w with reading := t }) :
    S.Leads P (sendCall (.openFile path) >>= k) q w := by
  apply hP.sender (o := .openFile path) trivial
  rintro _ _ (⟨t', ht', rfl, rfl⟩ | ⟨hno, -⟩)
  · rw [ht] at ht'
    cases ht'
    exact h
  · exact absurd ht (hno t)

theorem Setting.Final.fstat (hP : S.Final P) {k : Option Nat → SendProg α} {q : RecvProg β}
    (hsome : ∃ t, S.changes w.reading t)
    (h : ∀ t, S.changes w.reading t →
      S.Leads P (k (some w.reading.length)) q { w with reading := t }) :
    S.Leads P (sendCall .fstat >>= k) q w := by
  apply hP.sender (o := .fstat) hsome
  rintro _ _ ⟨rfl, t, ht, rfl⟩
  exact h t ht

theorem Setting.Final.read (hP : S.Final P) {offset : Nat} {k : Text → SendProg α}
    {q : RecvProg β}
    (h : S.Leads P (k ((w.reading.drop offset).take bufferSize)) q w) :
    S.Leads P (sendCall (.read offset) >>= k) q w := by
  apply hP.sender (o := .read offset) trivial
  rintro _ _ ⟨rfl, rfl⟩
  exact h

theorem Setting.Final.sendAck (hP : S.Final P) {k : Unit → RecvProg β} {p : SendProg α}
    (h : S.Leads P p (k ()) { w with up := w.up ++ [ackText] }) :
    S.Leads P p (recvCall .sendAck >>= k) w := by
  apply hP.receiver (o := .sendAck) trivial
  rintro _ _ rfl
  exact h

/-- A line that fits is received whole. -/
private theorem receives_line {n : Nat} {t : Text} {c d : List Item} {x : Packet}
    (h : Receives n (.line t :: c) x d) (hlen : t.length ≤ n) : x = .line t ∧ d = c := by
  generalize hs : (.line t :: c : List Item) = s at h
  cases h with
  | line _ =>
    cases hs
    exact ⟨rfl, rfl⟩
  | cut hcut =>
    cases hs
    omega
  | @content u _ hne _ =>
    cases u with
    | nil => exact absurd rfl hne
    | cons b u => cases hs

/-- Of a line that does not fit the first bytes are received. -/
private theorem receives_cut {n : Nat} {t : Text} {c d : List Item} {x : Packet}
    (h : Receives n (.line t :: c) x d) (hlen : n < t.length) :
    x = .line (t.take n) ∧ d = .line (t.drop n) :: c := by
  generalize hs : (.line t :: c : List Item) = s at h
  cases h with
  | line hfits =>
    cases hs
    omega
  | cut _ =>
    cases hs
    exact ⟨rfl, rfl⟩
  | @content u _ hne _ =>
    cases u with
    | nil => exact absurd rfl hne
    | cons b u => cases hs

theorem Setting.Final.recvLine (hP : S.Final P) {n : Nat} {t : Text} {k : Text → RecvProg β}
    {p : SendProg α} (hdown : w.down = [.line t]) (hlen : t.length ≤ n)
    (h : S.Leads P p (k t) { w with down := [] }) :
    S.Leads P p (recvCall (.recv n) >>= k) w := by
  apply hP.receiver
  · rw [Setting.readyRecv, hdown]
    exact .line
  · rintro _ _ ⟨x, c, hc, rfl, rfl⟩
    rw [hdown] at hc
    obtain ⟨rfl, rfl⟩ := receives_line hc hlen
    exact h

/-- The main loop takes a line, whatever is behind it. -/
theorem Setting.Final.recvCommandFirst (hP : S.Final P) {t : Text} {c : List Item}
    {k : Text → RecvProg β} {p : SendProg α} (hdown : w.down = .line t :: c)
    (hlen : t.length < bufferSize)
    (h : S.Leads P p (k t) { w with down := c, commands := w.commands ++ [.line t] }) :
    S.Leads P p (recvCall .recvCommand >>= k) w := by
  apply hP.receiver
  · rw [Setting.readyRecv, hdown]
    exact .line
  · rintro _ _ ⟨x, d, hd, rfl, rfl⟩
    rw [hdown] at hd
    obtain ⟨rfl, rfl⟩ := receives_line hd (by omega)
    exact h

theorem Setting.Final.recvCommand (hP : S.Final P) {t : Text} {k : Text → RecvProg β}
    {p : SendProg α} (hdown : w.down = [.line t]) (hlen : t.length < bufferSize)
    (h : S.Leads P p (k t) { w with down := [], commands := w.commands ++ [.line t] }) :
    S.Leads P p (recvCall .recvCommand >>= k) w :=
  hP.recvCommandFirst hdown hlen h

/-- A line that does not fit is cut; its rest stays on the connection. -/
theorem Setting.Final.recvCommandCut (hP : S.Final P) {t : Text} {k : Text → RecvProg β}
    {p : SendProg α} (hdown : w.down = [.line t]) (hlen : bufferSize ≤ t.length)
    (h : S.Leads P p (k (t.take (bufferSize - 1))) { w with
      down := [.line (t.drop (bufferSize - 1))],
      commands := w.commands ++ [.line (t.take (bufferSize - 1))] }) :
    S.Leads P p (recvCall .recvCommand >>= k) w := by
  apply hP.receiver
  · rw [Setting.readyRecv, hdown]
    exact .line
  · rintro _ _ ⟨x, c, hc, rfl, rfl⟩
    rw [hdown] at hc
    obtain ⟨rfl, rfl⟩ := receives_cut hc (Nat.lt_of_lt_of_le (by decide) hlen)
    exact h

/-- The calls of the receiver on its disk. -/
theorem Setting.Final.mkdir (hP : S.Final P) {path : Text} {k : Bool → RecvProg β}
    {p : SendProg α} (hsome : ∃ r d, S.mkdir path r w.disk d)
    (h : ∀ r d, S.mkdir path r w.disk d → S.Leads P p (k r) { w with disk := d }) :
    S.Leads P p (recvCall (.mkdir path) >>= k) w := by
  apply hP.receiver (o := .mkdir path) hsome
  rintro r _ ⟨d, hd, rfl⟩
  exact h r d hd

theorem Setting.Final.fopen (hP : S.Final P) {path : Text} {n : Int} {k : Bool → RecvProg β}
    {p : SendProg α} (hsome : ∃ r d, S.fopen path n r w.disk d)
    (h : ∀ r d, S.fopen path n r w.disk d → S.Leads P p (k r) { w with disk := d }) :
    S.Leads P p (recvCall (.fopen path n) >>= k) w := by
  apply hP.receiver (o := .fopen path n) hsome
  rintro r _ ⟨d, hd, rfl⟩
  exact h r d hd

theorem Setting.Final.write (hP : S.Final P) {path t : Text} {k : Bool → RecvProg β}
    {p : SendProg α} (hsome : ∃ r d, S.write path t r w.disk d)
    (h : ∀ r d, S.write path t r w.disk d → S.Leads P p (k r) { w with disk := d }) :
    S.Leads P p (recvCall (.write path t) >>= k) w := by
  apply hP.receiver (o := .write path t) hsome
  rintro r _ ⟨d, hd, rfl⟩
  exact h r d hd

/-- Nothing is in flight. -/
def World.Idle (w : World δ) : Prop := w.down = [] ∧ w.up = []

private theorem World.set_down (h : w.down = []) : { w with down := [] } = w := by
  rw [← h]

/-- The sender puts a packet on the connection and waits. -/
theorem Setting.Final.converses (hP : S.Final P) {x : Packet} {k : Bool → SendProg α}
    {q : RecvProg β}
    (h : S.Leads P (receiveAck >>= k) q { w with down := w.down ++ x.items }) :
    S.Leads P (converse x >>= k) q w := by
  unfold converse
  rw [bind_assoc]
  exact hP.send h

/-! ### Contents -/

/-- A block arrives, in whatever pieces. -/
private theorem Setting.Final.receivesChunk (hP : S.Final P) {u chunk : Text} {fuel : Nat}
    {k : Option Text → RecvProg β} {p : SendProg α} (hdown : w.down = u.map .byte)
    (hfuel : u.length ≤ fuel)
    (h : S.Leads P p (k (some (chunk ++ u))) { w with down := [] }) :
    S.Leads P p (receiveChunk fuel u.length chunk >>= k) w := by
  induction fuel generalizing u chunk w with
  | zero =>
    cases List.length_eq_zero_iff.mp (Nat.le_zero.mp hfuel)
    rw [receiveChunk, pure_bind]
    rwa [List.append_nil, World.set_down (by simpa using hdown)] at h
  | succ fuel ih =>
    unfold receiveChunk
    by_cases hu : u = []
    · subst hu
      rw [if_pos (by simp), pure_bind]
      rwa [List.append_nil, World.set_down (by simpa using hdown)] at h
    · rw [if_neg (by simpa using hu), bind_assoc]
      apply hP.receiver
      · rw [Setting.readyRecv, hdown, ← List.append_nil (u.map Item.byte)]
        exact .content hu rfl
      · rintro _ _ ⟨x, c, hc, rfl, rfl⟩
        rw [hdown, ← List.append_nil (u.map Item.byte)] at hc
        obtain ⟨t, v, ht, rfl, rfl, rfl⟩ := hc.of_bytes hu rfl
        rw [Packet.bytes, if_neg ht, List.length_append, Nat.add_sub_cancel_left]
        rw [List.length_append] at hfuel
        have hpos := List.length_pos_iff.mpr ht
        apply ih
        · simp
        · omega
        · rwa [List.append_assoc]

/-- The blocks of `t` can be written to `path` from the disk `d` on, and then `Q` holds. -/
def Setting.Writing (S : Setting δ) (path : Text) (Q : δ → Prop) : Nat → Text → δ → Prop
  | 0, _, d => Q d
  | fuel + 1, t, d =>
    if t = [] then Q d
    else (∃ r d', S.write path (t.take bufferSize) r d d') ∧
      ∀ r d', S.write path (t.take bufferSize) r d d' →
        r = true ∧ S.Writing path Q fuel (t.drop bufferSize) d'

/-- What is left of the open file is sent, received and written, block by block. -/
private theorem Setting.Final.contents (hP : S.Final P) {path rest : Text} {fuel g offset : Nat}
    {Q : δ → Prop} {k : Unit → SendProg α} {kr : Unit → RecvProg β} (hidle : w.Idle)
    (hrest : w.reading.drop offset = rest) (hfuel : rest.length < fuel) (hg : rest.length ≤ g)
    (hwrite : S.Writing path Q g rest w.disk)
    (h : ∀ w' : World δ, w'.Idle → w'.commands = w.commands → Q w'.disk →
      S.Leads P (k ()) (kr ()) w') :
    S.Leads P (sendChunks fuel offset >>= k) (receiveContents path g rest.length >>= kr) w := by
  induction fuel generalizing w offset g rest with
  | zero => omega
  | succ fuel ih =>
    unfold sendChunks
    rw [bind_assoc]
    apply hP.read
    rw [hrest]
    by_cases hnil : rest = []
    · -- The end of the file: both loops end.
      subst hnil
      rw [if_pos (by simp), pure_bind]
      have hdone : receiveContents path g ([] : Text).length = pure () := by
        cases g <;> simp [receiveContents]
      rw [hdone, pure_bind]
      apply h w hidle rfl
      cases g with
      | zero => exact hwrite
      | succ g => simpa [Setting.Writing] using hwrite
    · have hpos := List.length_pos_iff.mpr hnil
      have hblock : rest.take bufferSize ≠ [] := by
        simp [hnil, bufferSize]
      have hdrop : rest.drop (rest.take bufferSize).length = rest.drop bufferSize := by
        rw [List.length_take]
        by_cases hle : rest.length ≤ bufferSize
        · rw [Nat.min_eq_right hle, List.drop_length, List.drop_of_length_le hle]
        · rw [Nat.min_eq_left (by omega)]
      have hlen : rest.length - (rest.take bufferSize).length = (rest.drop bufferSize).length := by
        rw [← hdrop, List.length_drop]
      have hmin : min rest.length bufferSize = (rest.take bufferSize).length := by
        rw [List.length_take, Nat.min_comm]
      have hshort : (rest.drop bufferSize).length < rest.length := by
        rw [List.length_drop]
        simp only [bufferSize]
        omega
      obtain ⟨g, rfl⟩ : ∃ g', g = g' + 1 := ⟨g - 1, by omega⟩
      rw [Setting.Writing, if_neg hnil] at hwrite
      rw [if_neg hblock, bind_assoc]
      apply hP.converses
      unfold receiveContents
      rw [if_neg (by omega), bind_assoc, hmin]
      apply hP.receivesChunk (by simp [hidle.1, Packet.items]) (le_refl _)
      simp only [List.nil_append, bind_assoc]
      apply hP.write
      · exact hwrite.1
      · intro r d hd
        obtain ⟨rfl, hwrite'⟩ := hwrite.2 r d hd
        simp only [if_true, bind_assoc]
        apply hP.sendAck
        apply hP.acked (by simp [hidle.2])
        rw [hlen]
        simp only [if_true]
        apply ih
        · exact ⟨rfl, rfl⟩
        · rw [← List.drop_drop, hrest, hdrop]
        · omega
        · omega
        · exact hwrite'
        · exact h

/-! ### Announcements -/

/-- What `sscanf` takes of an announced name. -/
def firstWord (name : Text) : Text := (fields name).head?.getD []

/-- A name whose line arrives whole and has a word in it. -/
structure Sendable (verb name : Text) : Prop where
  word : fields name ≠ []
  noNul : 0 ∉ name
  fits : (verb ++ name ++ lit "\n").length < bufferSize

private theorem Sendable.cstr_line {verb name : Text} (h : Sendable verb name) (hverb : 0 ∉ verb) :
    cstr (verb ++ name ++ lit "\n") = verb ++ name ++ lit "\n" := by
  apply cstr_eq_self
  simp only [List.mem_append, not_or]
  exact ⟨⟨hverb, h.noNul⟩, by decide⟩

private theorem Sendable.fields_name {verb name : Text} (h : Sendable verb name) :
    (fields (name ++ lit "\n")).head? = some (firstWord name) := by
  have hsplit : fields (name ++ lit "\n") = fields name ++ fields [] :=
    fields_append_cons (b := 10) (by decide) name []
  obtain ⟨w, ws, hw⟩ := List.exists_cons_of_ne_nil h.word
  rw [hsplit, firstWord, hw]
  rfl

theorem clip_eq_self {size : Nat} {t : Text} (h : t.length < size) : clip size t = t :=
  List.take_of_length_le (by omega)

theorem fileLine_eq {name : Text} (h : Sendable (lit "FILE ") name) :
    fileLine name = lit "FILE " ++ name ++ lit "\n" :=
  clip_eq_self (lt_trans h.fits (by decide))

theorem dirLine_eq {name : Text} (h : Sendable (lit "DIR ") name) :
    dirLine name = lit "DIR " ++ name ++ lit "\n" :=
  clip_eq_self (lt_trans h.fits (by decide))

/-- The main loop takes the announcement of a file. -/
private theorem Setting.Final.fileAnnounced (hP : S.Final P) {name base : Text} {strips : Bool}
    {g : Nat} {p : SendProg α} {k : Unit → RecvProg β} (hname : Sendable (lit "FILE ") name)
    (hdown : w.down = [.line (fileLine name)])
    (h : S.Leads P p (recvCall .sendAck >>= fun _ ↦
        receiveAndSaveFile (fullPath strips base (firstWord name)) >>= fun _ ↦
        receiveEntries strips base g >>= k)
      { w with down := [], commands := w.commands ++ [.line (fileLine name)] }) :
    S.Leads P p (receiveEntries strips base (g + 1) >>= k) w := by
  unfold receiveEntries
  rw [bind_assoc]
  apply hP.recvCommand hdown (by rw [fileLine_eq hname]; exact hname.fits)
  rw [fileLine_eq hname] at h ⊢
  simp only [hname.cstr_line (show 0 ∉ lit "FILE " by decide)]
  have hstart : startsWith (lit "FILE ") (lit "FILE " ++ name ++ lit "\n") = true := rfl
  rw [if_neg (by simp [lit]), if_neg (by simp [startsWith, lit, List.isPrefixOf]), if_pos hstart]
  have hdrop : (lit "FILE " ++ name ++ lit "\n").drop 5 = name ++ lit "\n" := rfl
  rw [hdrop, hname.fields_name]
  simp only [Prog.ofOption, bind_assoc]
  exact h

/-- The main loop takes the announcement of a folder. -/
private theorem Setting.Final.folderAnnounced (hP : S.Final P) {name base : Text} {strips : Bool}
    {g : Nat} {p : SendProg α} {k : Unit → RecvProg β} (hname : Sendable (lit "DIR ") name)
    (hdown : w.down = [.line (dirLine name)])
    (h : S.Leads P p (recvCall .sendAck >>= fun _ ↦
        recvCall (.mkdir (fullPath strips base (firstWord name))) >>= fun _ ↦
        receiveEntries strips base g >>= k)
      { w with down := [], commands := w.commands ++ [.line (dirLine name)] }) :
    S.Leads P p (receiveEntries strips base (g + 1) >>= k) w := by
  unfold receiveEntries
  rw [bind_assoc]
  apply hP.recvCommand hdown (by rw [dirLine_eq hname]; exact hname.fits)
  rw [dirLine_eq hname] at h ⊢
  simp only [hname.cstr_line (show 0 ∉ lit "DIR " by decide)]
  have hstart : startsWith (lit "DIR ") (lit "DIR " ++ name ++ lit "\n") = true := rfl
  rw [if_neg (by simp [lit]), if_neg (by simp [startsWith, lit, List.isPrefixOf]),
    if_neg (by simp [startsWith, lit, List.isPrefixOf]), if_pos hstart]
  have hdrop : (lit "DIR " ++ name ++ lit "\n").drop 4 = name ++ lit "\n" := rfl
  rw [hdrop, hname.fields_name]
  simp only [Prog.ofOption, receiveAndSaveDirectory, bind_assoc]
  exact h

/-! ### Files -/

private theorem sizeLine_eq {n : Nat} (h : n < 2 ^ 63) :
    sizeLine n = decimal n ++ lit "\n" ∧ (sizeLine n).length < bufferSize := by
  have hlen : (decimal n).length ≤ 19 := length_decimal_le (by decide) (lt_trans h (by decide))
  have hfits : (decimal n ++ lit "\n").length < bufferSize := by
    rw [List.length_append]
    simp only [lit, bufferSize]
    simp
    omega
  have hline : sizeLine n = decimal n ++ lit "\n" := clip_eq_self (lt_trans hfits (by decide))
  exact ⟨hline, hline ▸ hfits⟩

/-- `atol` reads a number up to what is no digit. -/
theorem atol_decimal {n : Nat} (h : n < 2 ^ 63) {rest : Text}
    (hrest : rest.takeWhile (fun b ↦ 48 ≤ b && b ≤ 57) = []) : atol (decimal n ++ rest) = n := by
  have hdigit : ∀ b ∈ decimal n, (48 ≤ b && b ≤ 57) = true := by
    intro b hb
    simpa [UInt8.le_iff_toNat_le] using digit_of_mem_decimal hb
  have htake : (decimal n ++ rest).takeWhile (fun b ↦ 48 ≤ b && b ≤ 57) = decimal n := by
    rw [List.takeWhile_append_of_pos hdigit, hrest, List.append_nil]
  obtain ⟨b, digits, hb⟩ := List.exists_cons_of_ne_nil (decimal_ne_nil n)
  obtain ⟨hlow, hhigh⟩ := digit_of_mem_decimal (n := n) (b := b) (by simp [hb])
  have hspace : isSpace b = false := by
    simp only [isSpace, Bool.or_eq_false_iff, Bool.and_eq_false_iff, beq_eq_false_iff_ne,
      decide_eq_false_iff_not, UInt8.le_iff_toNat_le, ne_eq, ← UInt8.toNat_inj]
    simp
    omega
  have hsign : b ≠ 43 ∧ b ≠ 45 := by
    constructor
    · rintro rfl
      simp at hlow
    · rintro rfl
      simp at hlow
  have hhead : (decimal n ++ rest).head? = some b := by simp [hb]
  have hskip : (decimal n ++ rest).dropWhile isSpace = decimal n ++ rest := by
    rw [hb, List.cons_append, List.dropWhile_cons_of_neg (by simp [hspace])]
  unfold atol
  simp only [hskip, hhead, Option.some.injEq, hsign.1, hsign.2, or_self, if_false, htake,
    digitsValue_decimal]
  rw [Nat.min_eq_left (by omega)]

/-- The receiver reads the size that was announced. -/
private theorem atol_sizeLine {n : Nat} (h : n < 2 ^ 63) : atol (cstr (sizeLine n)) = n := by
  have hzero : 0 ∉ decimal n ++ lit "\n" := by
    intro h0
    obtain h0 | h0 := List.mem_append.mp h0
    · have := digit_of_mem_decimal h0
      simp at this
    · exact absurd h0 (by decide)
  rw [(sizeLine_eq h).1, cstr_eq_self hzero]
  exact atol_decimal h (by decide)

/-- A file can be received to `path` from the disk `d` on, and then `Q` holds. Only an empty one
may fail to be opened. -/
def Setting.Saving (S : Setting δ) (path t : Text) (Q : δ → Prop) (d : δ) : Prop :=
  (∃ r d', S.fopen path t.length r d d') ∧
    ∀ r d', S.fopen path t.length r d d' →
      if r then S.Writing path Q t.length t d' else t = [] ∧ Q d'

/-- A file is announced, sent and saved. -/
private theorem Setting.Final.file (hP : S.Final P) {src base t : Text} {strips : Bool}
    {fuel g skip : Nat} {Q : δ → Prop} {k : Unit → SendProg α} {kr : Unit → RecvProg β}
    (hidle : w.Idle) (hsrc : S.source src = some (.file t))
    (hname : Sendable (lit "FILE ") (src.drop skip)) (hfuel : t.length < fuel)
    (hsize : t.length < 2 ^ 63) (hchanges : ∃ t', S.changes t t')
    (hsave : ∀ t', S.changes t t' → t'.length = t.length ∧
      S.Saving (fullPath strips base (firstWord (src.drop skip))) t' Q w.disk)
    (h : ∀ w' : World δ, w'.Idle →
      w'.commands = w.commands ++ [.line (fileLine (src.drop skip))] → Q w'.disk →
      S.Leads P (k ()) (receiveEntries strips base g >>= kr) w') :
    S.Leads P (sendFileOverNetwork fuel src skip >>= k)
      (receiveEntries strips base (g + 1) >>= kr) w := by
  unfold sendFileOverNetwork
  rw [bind_assoc]
  apply hP.openFile hsrc
  simp only [if_true, bind_assoc]
  apply hP.fstat hchanges
  intro t' ht'
  obtain ⟨hlen, hsome, hsaving⟩ := hsave t' ht'
  simp only [bind_assoc]
  apply hP.converses
  apply hP.fileAnnounced hname (by simp [hidle.1, Packet.items])
  apply hP.sendAck
  apply hP.acked (by simp [hidle.2])
  simp only [if_true, bind_assoc]
  apply hP.converses
  obtain ⟨-, hfits⟩ := sizeLine_eq hsize
  unfold receiveAndSaveFile
  rw [bind_assoc]
  apply hP.recvLine (t := sizeLine t.length) (by simp [Packet.items]) (by omega)
  have hne : sizeLine t.length ≠ [] := by
    rw [(sizeLine_eq hsize).1]
    simp [lit]
  simp only [hne, if_false, bind_assoc]
  rw [atol_sizeLine hsize, ← hlen]
  apply hP.sendAck
  apply hP.fopen
  · exact hsome
  · intro r d hd
    have hcase := hsaving r d hd
    apply hP.acked (by simp)
    simp only [if_true]
    cases r with
    | true =>
      simp only [if_true] at hcase ⊢
      rw [Int.toNat_natCast]
      apply hP.contents
      · exact ⟨rfl, rfl⟩
      · exact List.drop_zero
      · omega
      · omega
      · exact hcase
      · exact h
    | false =>
      -- The file is empty, so nothing follows although it could not be opened.
      simp only [Bool.false_eq_true, if_false] at hcase ⊢
      obtain ⟨rfl, hQ⟩ := hcase
      change S.Leads P _ (receiveContents base 0 ([] : Text).length >>= fun _ ↦
        receiveEntries strips base g >>= kr) _
      apply hP.contents
      · exact ⟨rfl, rfl⟩
      · exact List.drop_zero
      · simp only [List.length_nil] at hlen ⊢
        omega
      · exact le_refl _
      · exact hQ
      · exact h

/-! ### Folders -/

/-- `R` holds of every entry below the folder `dir`. -/
def Each (R : Text → Node → Prop) : Text → Listing → Prop
  | _, .done => True
  | dir, .file name t rest => R (dir ++ lit "/" ++ name) (.file t) ∧ Each R dir rest
  | dir, .folder name sub rest =>
    R (dir ++ lit "/" ++ name) (.folder sub) ∧ Each R (dir ++ lit "/" ++ name) sub ∧ Each R dir rest

/-- The node at `path` is on the sender's disk, and its announcement can be read. A file may
change while it is sent, but not in length. -/
structure Setting.Announces (S : Setting δ) (skip : Nat) (path : Text) (node : Node) : Prop where
  source : S.source path = some node
  fits : path.length < maxPathSize
  announced : match node with
    | .file t => Sendable (lit "FILE ") (path.drop skip) ∧ t.length < 2 ^ 63 ∧
        (∃ t', S.changes t t') ∧ ∀ t', S.changes t t' → t'.length = t.length
    | .folder l => Sendable (lit "DIR ") (path.drop skip) ∧ ∀ n ∈ names l, isDots n = false

/-- The fuel that sending the entries of a folder takes. -/
def fuelFor : Listing → Nat
  | .done => 0
  | .file _ t rest => max (t.length + 1) (fuelFor rest)
  | .folder _ sub rest => max (fuelFor sub + 1) (fuelFor rest)

/-- The number of announcements for the entries of a folder. -/
def announcements : Listing → Nat
  | .done => 0
  | .file _ _ rest => announcements rest + 1
  | .folder _ sub rest => announcements rest + announcements sub + 1

/-- The entries of `dir` can be received from the disk `d` on, each at its `target`, and then
`Q` holds. -/
def Setting.Storing (S : Setting δ) (target : Text → Text) :
    Text → Listing → (δ → Prop) → δ → Prop
  | _, .done, Q, d => Q d
  | dir, .file name t rest, Q, d => ∀ t', S.changes t t' →
      S.Saving (target (dir ++ lit "/" ++ name)) t' (S.Storing target dir rest Q) d
  | dir, .folder name sub rest, Q, d =>
    (∃ r d', S.mkdir (target (dir ++ lit "/" ++ name)) r d d') ∧
      ∀ r d', S.mkdir (target (dir ++ lit "/" ++ name)) r d d' →
        S.Storing target (dir ++ lit "/" ++ name) sub (S.Storing target dir rest Q) d'

theorem forEach_of_dots {body : Text → SendProg Unit} {ns : List Text}
    (hbody : ∀ n, isDots n = true → body n = pure ())
    (h : ns.filter (fun n ↦ !isDots n) = []) : forEach body ns = pure () := by
  induction ns with
  | nil => rfl
  | cons n ns ih =>
    by_cases hn : isDots n = true
    · simp only [List.filter_cons, hn, Bool.not_true, Bool.false_eq_true, if_false] at h
      rw [forEach, hbody n hn, pure_bind, ih h]
    · simp [hn] at h

theorem forEach_of_filter {body : Text → SendProg Unit} {ns : List Text} {n : Text}
    {tail : List Text} (hbody : ∀ n, isDots n = true → body n = pure ())
    (h : ns.filter (fun n ↦ !isDots n) = n :: tail) :
    ∃ ns' : List Text, ns'.filter (fun n ↦ !isDots n) = tail ∧
      forEach body ns = (body n >>= fun _ ↦ forEach body ns') := by
  induction ns with
  | nil => simp at h
  | cons m ns ih =>
    by_cases hm : isDots m = true
    · simp only [List.filter_cons, hm, Bool.not_true, Bool.false_eq_true, if_false] at h
      obtain ⟨ns', hns', hbind⟩ := ih h
      exact ⟨ns', hns', by rw [forEach, hbody m hm, pure_bind, hbind]⟩
    · simp only [List.filter_cons, hm, Bool.not_false, if_true, List.cons.injEq] at h
      obtain ⟨rfl, hrest⟩ := h
      exact ⟨ns, hrest, rfl⟩

/-- The commands that a stretch of a run adds are lines. -/
def World.Commanded (w w' : World δ) : Prop :=
  ∃ lines : List Text, w'.commands = w.commands ++ lines.map .line

theorem World.Commanded.trans {w w₁ w₂ : World δ} (h₁ : w.Commanded w₁) (h₂ : w₁.Commanded w₂) :
    w.Commanded w₂ := by
  obtain ⟨lines₁, h₁⟩ := h₁
  obtain ⟨lines₂, h₂⟩ := h₂
  exact ⟨lines₁ ++ lines₂, by simp [h₂, h₁]⟩

theorem World.Commanded.lines {w w' : World δ} (h : w.Commanded w')
    (hcommands : ∀ x ∈ w.commands, ∃ t, x = .line t) : ∀ x ∈ w'.commands, ∃ t, x = .line t := by
  obtain ⟨lines, h⟩ := h
  intro x hx
  rw [h, List.mem_append] at hx
  obtain hx | hx := hx
  · exact hcommands x hx
  · obtain ⟨t, -, rfl⟩ := List.mem_map.mp hx
    exact ⟨t, rfl⟩

theorem sendEntry_of_dots {fuel skip : Nat} {sendDirectory : Text → SendProg Unit}
    {src n : Text} (h : isDots n = true) : sendEntry fuel sendDirectory src skip n = pure () := by
  rw [sendEntry, if_pos h]

theorem Setting.Final.sendEntry_of_name (hP : S.Final P) {fuel skip : Nat}
    {sendDirectory : Text → SendProg Unit} {src n : Text} {node : Node}
    {k : Unit → SendProg α} {q : RecvProg β} (hn : isDots n = false)
    (hsource : S.source (src ++ lit "/" ++ n) = some node)
    (hfits : (src ++ lit "/" ++ n).length < maxPathSize)
    (h : S.Leads P ((match node with
        | .folder _ => sendDirectory (src ++ lit "/" ++ n)
        | .file _ => sendFileOverNetwork fuel (src ++ lit "/" ++ n) skip) >>= k) q w) :
    S.Leads P (sendEntry fuel sendDirectory src skip n >>= k) q w := by
  unfold sendEntry
  rw [if_neg (by simp [hn]), clip_eq_self hfits]
  simp only [bind_assoc]
  apply hP.stat
  rw [hsource]
  cases node <;> exact h

/-- A folder is announced and created; then its entries follow. -/
theorem Setting.Final.folder (hP : S.Final P) {src base : Text} {l : Listing}
    {strips : Bool} {fuel g skip : Nat} {R : δ → Prop} {k : Unit → SendProg α}
    {kr : Unit → RecvProg β} (hidle : w.Idle) (hsrc : S.source src = some (.folder l))
    (hname : Sendable (lit "DIR ") (src.drop skip)) (hdots : ∀ n ∈ names l, isDots n = false)
    (hsome : ∃ r d, S.mkdir (fullPath strips base (firstWord (src.drop skip))) r w.disk d)
    (hmade : ∀ r d, S.mkdir (fullPath strips base (firstWord (src.drop skip))) r w.disk d → R d)
    (h : ∀ (ns : List Text) (w' : World δ), ns.filter (fun n ↦ !isDots n) = names l → w'.Idle →
      w.Commanded w' → R w'.disk →
      S.Leads P (forEach (sendEntry fuel
          (fun path ↦ sendDirectoryOverNetwork fuel path skip) src skip) ns >>= k)
        (receiveEntries strips base g >>= kr) w') :
    S.Leads P (sendDirectoryOverNetwork (fuel + 1) src skip >>= k)
      (receiveEntries strips base (g + 1) >>= kr) w := by
  unfold sendDirectoryOverNetwork
  rw [bind_assoc]
  apply hP.opendir hsrc hdots
  intro ns hns
  simp only [bind_assoc]
  apply hP.converses
  apply hP.folderAnnounced hname (by simp [hidle.1, Packet.items])
  apply hP.sendAck
  apply hP.acked (by simp [hidle.2])
  simp only [if_true]
  apply hP.mkdir
  · exact hsome
  · intro r d hd
    exact h ns _ hns ⟨rfl, rfl⟩ ⟨[_], rfl⟩ (hmade r d hd)

/-- A folder whose announcement does not fit is made where the part of it that arrives says; the
rest of the line stays on the connection. -/
theorem Setting.Final.folderCut (hP : S.Final P) {src base t : Text} {l : Listing}
    {strips : Bool} {fuel g skip : Nat} {R : δ → Prop} {k : Unit → SendProg α}
    {kr : Unit → RecvProg β} (hidle : w.Idle) (hsrc : S.source src = some (.folder l))
    (hdots : ∀ n ∈ names l, isDots n = false)
    (hlong : bufferSize ≤ (dirLine (src.drop skip)).length)
    (hcut : (dirLine (src.drop skip)).take (bufferSize - 1) = lit "DIR " ++ t)
    (hnul : 0 ∉ t) (hword : fields t ≠ [])
    (hsome : ∃ r d, S.mkdir (fullPath strips base (firstWord t)) r w.disk d)
    (hmade : ∀ r d, S.mkdir (fullPath strips base (firstWord t)) r w.disk d → R d)
    (h : ∀ (ns : List Text) (w' : World δ), ns.filter (fun n ↦ !isDots n) = names l →
      w'.down = [.line ((dirLine (src.drop skip)).drop (bufferSize - 1))] → w'.up = [] →
      w.Commanded w' → R w'.disk →
      S.Leads P (forEach (sendEntry fuel
          (fun path ↦ sendDirectoryOverNetwork fuel path skip) src skip) ns >>= k)
        (receiveEntries strips base g >>= kr) w') :
    S.Leads P (sendDirectoryOverNetwork (fuel + 1) src skip >>= k)
      (receiveEntries strips base (g + 1) >>= kr) w := by
  unfold sendDirectoryOverNetwork
  rw [bind_assoc]
  apply hP.opendir hsrc hdots
  intro ns hns
  simp only [bind_assoc]
  apply hP.converses
  unfold receiveEntries
  rw [bind_assoc]
  apply hP.recvCommandCut (t := dirLine (src.drop skip)) (by simp [hidle.1, Packet.items]) hlong
  have hcstr : cstr (lit "DIR " ++ t) = lit "DIR " ++ t := by
    apply cstr_eq_self
    rw [List.mem_append, not_or]
    exact ⟨by decide, hnul⟩
  have hstart : startsWith (lit "DIR ") (lit "DIR " ++ t) = true := rfl
  have hdrop : (lit "DIR " ++ t).drop 4 = t := rfl
  obtain ⟨v, vs, hv⟩ := List.exists_cons_of_ne_nil hword
  have hfirst : (fields t).head? = some (firstWord t) := by
    rw [firstWord, hv]
    rfl
  simp only [hcut, hcstr]
  rw [if_neg (by simp [lit]), if_neg (by simp [startsWith, lit, List.isPrefixOf]),
    if_neg (by simp [startsWith, lit, List.isPrefixOf]), if_pos hstart, hdrop, hfirst]
  simp only [Prog.ofOption, receiveAndSaveDirectory, bind_assoc]
  apply hP.sendAck
  apply hP.acked (by simp [hidle.2])
  simp only [if_true]
  apply hP.mkdir
  · exact hsome
  · intro r d hd
    exact h ns _ hns rfl rfl ⟨[_], rfl⟩ (hmade r d hd)

/-- The entries of a folder are sent and stored, one after the other. -/
private theorem Setting.Final.entries (hP : S.Final P) {base : Text} {strips : Bool} {skip : Nat}
    {kr : Unit → RecvProg β} (l : Listing) {dir : Text} {ns : List Text} {fuel g : Nat}
    {Q : δ → Prop} {k : Unit → SendProg α} (hidle : w.Idle)
    (heach : Each (S.Announces skip) dir l) (hdots : ∀ n ∈ names l, isDots n = false)
    (hns : ns.filter (fun n ↦ !isDots n) = names l) (hfuel : fuelFor l ≤ fuel)
    (hstore : S.Storing (fun path ↦ fullPath strips base (firstWord (path.drop skip))) dir l Q w.disk)
    (h : ∀ w' : World δ, w'.Idle → w.Commanded w' → Q w'.disk →
      S.Leads P (k ()) (receiveEntries strips base g >>= kr) w') :
    S.Leads P (forEach (sendEntry fuel
        (fun path ↦ sendDirectoryOverNetwork fuel path skip) dir skip) ns >>= k)
      (receiveEntries strips base (g + announcements l) >>= kr) w := by
  induction l generalizing dir ns fuel g Q k w with
  | done =>
    rw [forEach_of_dots (fun n hn ↦ sendEntry_of_dots hn) hns, pure_bind]
    exact h w hidle ⟨[], by simp⟩ hstore
  | file name t rest ih =>
    obtain ⟨hnode, hrest⟩ := heach
    obtain ⟨hsend, hsize, hchanges, hlen⟩ := hnode.announced
    obtain ⟨ns', hns', hbind⟩ := forEach_of_filter (fun n hn ↦ sendEntry_of_dots hn) hns
    rw [hbind, bind_assoc]
    apply hP.sendEntry_of_name (hdots name (by simp [names])) hnode.source hnode.fits
    rw [fuelFor] at hfuel
    rw [announcements, ← Nat.add_assoc]
    apply hP.file hidle hnode.source hsend (by omega) hsize hchanges
    · intro t' ht'
      exact ⟨hlen t' ht', hstore t' ht'⟩
    · intro w' hidle' hcommands hstore'
      apply ih hidle' hrest (fun n hn ↦ hdots n (by simp [names, hn])) hns' (by omega) hstore'
      intro w'' hidle'' hcommanded hQ
      exact h w'' hidle'' (.trans ⟨[_], hcommands⟩ hcommanded) hQ
  | folder name sub rest ihsub ihrest =>
    obtain ⟨hnode, hsub, hrest⟩ := heach
    obtain ⟨hsend, hsubdots⟩ := hnode.announced
    obtain ⟨ns', hns', hbind⟩ := forEach_of_filter (fun n hn ↦ sendEntry_of_dots hn) hns
    rw [hbind, bind_assoc]
    apply hP.sendEntry_of_name (hdots name (by simp [names])) hnode.source hnode.fits
    rw [fuelFor] at hfuel
    obtain ⟨f, rfl⟩ : ∃ f, fuel = f + 1 := ⟨fuel - 1, by omega⟩
    rw [announcements, ← Nat.add_assoc, ← Nat.add_assoc]
    apply hP.folder hidle hnode.source hsend hsubdots hstore.1 hstore.2
    intro nsub w₁ hnsub hidle₁ hcommanded₁ hsubstore
    apply ihsub hidle₁ hsub hsubdots hnsub (by omega) hsubstore
    intro w₂ hidle₂ hcommanded₂ hreststore
    apply ihrest hidle₂ hrest (fun n hn ↦ hdots n (by simp [names, hn])) hns' (by omega) hreststore
    intro w₃ hidle₃ hcommanded₃ hQ
    exact h w₃ hidle₃ (hcommanded₁.trans (hcommanded₂.trans hcommanded₃)) hQ

end Rules

/-! ### Whole copies -/

/-- Both programs have come to their end, nothing is left in flight, and the receiver has taken
only lines for commands. -/
structure Finished (Q : δ → Prop)
    (s : Duet.State SendOp RecvOp SendOp.Res RecvOp.Res (World δ) Text Unit) : Prop where
  sender : s.first = pure (lit "Finished Copying\n")
  receiver : s.second = pure ()
  idle : s.world.Idle
  disk : Q s.world.disk
  commands : ∀ x ∈ s.world.commands, ∃ t, x = .line t

theorem Setting.finished_final (S : Setting δ) (Q : δ → Prop) : S.Final (Finished Q) := by
  rintro ⟨p, q, w⟩ t hs (hstep | hstep)
  · obtain rfl : p = _ := hs.sender
    cases hstep
  · obtain rfl : q = _ := hs.receiver
    cases hstep

/-- The world before a copy. -/
def World.start (d : δ) : World δ := ⟨[], [], [], [], d⟩

/-- A node can be received at `target path` from the disk `d` on, and then `Q` holds. -/
def Setting.Receiving (S : Setting δ) (target : Text → Text) (path : Text) (node : Node)
    (Q : δ → Prop) (d : δ) : Prop :=
  match node with
  | .file t => ∀ t', S.changes t t' → S.Saving (target path) t' Q d
  | .folder l => (∃ r d', S.mkdir (target path) r d d') ∧
      ∀ r d', S.mkdir (target path) r d d' → S.Storing target path l Q d'

/-- `R` holds of a node and of everything below it. -/
def Node.Each (R : Text → Node → Prop) (path : Text) (node : Node) : Prop :=
  R path node ∧
    match node with
    | .file _ => True
    | .folder l => Transfer.Each R path l

/-- The fuel that sending a node takes. -/
def Node.fuelFor : Node → Nat
  | .file t => t.length + 1
  | .folder l => Transfer.fuelFor l + 1

/-- The number of announcements for a node. -/
def Node.announcements : Node → Nat
  | .file _ => 1
  | .folder l => Transfer.announcements l + 1

section Copy

variable {S : Setting δ} {Q : δ → Prop} {w : World δ}

/-- The end of a copy. -/
theorem Setting.ends {base : Text} {strips : Bool} {g : Nat} (hidle : w.Idle)
    (hcommands : ∀ x ∈ w.commands, ∃ t, x = .line t) (hQ : Q w.disk) :
    S.Leads (Finished Q) copySource.finish (receiveEntries strips base (g + 1)) w := by
  have hP := S.finished_final Q
  unfold copySource.finish
  apply hP.send
  unfold receiveEntries
  apply hP.recvCommand (t := lit "END\n") (by simp [hidle.1, Packet.items]) (by decide)
  apply Inevitable.now
  refine ⟨rfl, rfl, ⟨rfl, hidle.2⟩, hQ, ?_⟩
  intro x hx
  obtain hx | hx := List.mem_append.mp hx
  · exact hcommands x hx
  · exact ⟨_, List.mem_singleton.mp hx⟩

/-- The end of a copy behind the rest of a line that is no command. -/
theorem Setting.endsBehind {base rest : Text} {strips : Bool} {g : Nat}
    (hdown : w.down = [.line rest]) (hup : w.up = []) (hlen : rest.length < bufferSize)
    (hne : rest ≠ []) (hno : ∀ verb ∈ [lit "END\n", lit "FILE ", lit "DIR "],
      startsWith verb (cstr rest) = false)
    (hcommands : ∀ x ∈ w.commands, ∃ t, x = .line t) (hQ : Q w.disk) :
    S.Leads (Finished Q) copySource.finish (receiveEntries strips base (g + 2)) w := by
  have hP := S.finished_final Q
  simp only [List.forall_mem_cons, List.not_mem_nil, false_imp_iff, implies_true, and_true] at hno
  obtain ⟨hend, hfile, hdir⟩ := hno
  unfold copySource.finish
  apply hP.send
  unfold receiveEntries
  apply hP.recvCommandFirst (t := rest) (c := [.line (lit "END\n")])
    (by simp [hdown, Packet.items]) hlen
  simp only [if_neg hne, hend, hfile, hdir, Bool.false_eq_true, if_false]
  unfold receiveEntries
  apply hP.recvCommand (t := lit "END\n") rfl (by decide)
  apply Inevitable.now
  refine ⟨rfl, rfl, ⟨rfl, hup⟩, hQ, ?_⟩
  intro x hx
  rw [List.append_assoc] at hx
  obtain hx | hx := List.mem_append.mp hx
  · exact hcommands x hx
  · obtain rfl | rfl := List.mem_pair.mp hx
    · exact ⟨_, rfl⟩
    · exact ⟨_, rfl⟩

/-- A node is sent and received, and the copy ends. -/
private theorem Setting.sends_node {src base : Text} {strips : Bool} {skip fuel g : Nat}
    {node : Node} (hidle : w.Idle) (hcommands : ∀ x ∈ w.commands, ∃ t, x = .line t)
    (hall : node.Each (S.Announces skip) src) (hfuel : node.fuelFor ≤ fuel)
    (hreceive : S.Receiving (fun path ↦ fullPath strips base (firstWord (path.drop skip))) src node Q w.disk) :
    S.Leads (Finished Q)
      ((match node with
        | .folder _ => sendDirectoryOverNetwork fuel src skip
        | .file _ => sendFileOverNetwork fuel src skip) >>= fun _ ↦ copySource.finish)
      (receiveEntries strips base (g + 1 + node.announcements)) w := by
  have hP := S.finished_final Q
  obtain ⟨hnode, hbelow⟩ := hall
  rw [← bind_pure (receiveEntries strips base (g + 1 + node.announcements))]
  cases node with
  | file t =>
    obtain ⟨hsend, hsize, hchanges, hlen⟩ := hnode.announced
    apply hP.file hidle hnode.source hsend hfuel hsize hchanges
    · intro t' ht'
      exact ⟨hlen t' ht', hreceive t' ht'⟩
    · intro w' hidle' hw' hQ
      rw [bind_pure]
      exact Setting.ends hidle' (World.Commanded.lines ⟨[_], hw'⟩ hcommands) hQ
  | folder l =>
    obtain ⟨hsend, hdots⟩ := hnode.announced
    obtain ⟨f, rfl⟩ : ∃ f, fuel = f + 1 := ⟨fuel - 1, by rw [Node.fuelFor] at hfuel; omega⟩
    rw [Node.announcements, ← Nat.add_assoc]
    apply hP.folder hidle hnode.source hsend hdots hreceive.1 hreceive.2
    intro ns w₁ hns hidle₁ hw₁ hstore
    apply hP.entries l hidle₁ hbelow hdots hns (by rw [Node.fuelFor] at hfuel; omega) hstore
    intro w₂ hidle₂ hw₂ hQ
    rw [bind_pure]
    exact Setting.ends hidle₂ ((hw₁.trans hw₂).lines hcommands) hQ

/-- What a copy needs: its arguments, a source that can be announced, and a destination that
can be told to the receiver and made there. -/
structure Setting.Copies (S : Setting δ) (scanned : Option (Text × Text × Text))
    (lengthToSkip : Text → Text → Kind → Option Nat) (strips : Bool) (src dest : Text)
    (skip : Nat) (node : Node) (Q : δ → Prop) (d : δ) : Prop where
  scans : ∃ ip, scanned = some (src, dest, ip) ∧ ip.length < 16
  skips : lengthToSkip src dest node.kind = some skip
  announced : node.Each (S.Announces skip) src
  sendable : Sendable (lit "DEST ") dest
  destination : firstWord dest = dest
  made : ∃ r d', S.mkdir dest r d d'
  received : ∀ r d', S.mkdir dest r d d' →
    S.Receiving (fun path ↦ fullPath strips dest (firstWord (path.drop skip))) src node Q d'

/-- The part of a copy in front of the entries: the receiver is told the destination. -/
theorem Setting.Final.destination {P : Duet.State SendOp RecvOp SendOp.Res RecvOp.Res (World δ)
      Text Unit → Prop} (hP : S.Final P) {verbs : Text}
    {lengthToSkip : Text → Text → Kind → Option Nat} {strips : Bool} {src dest ip : Text}
    {skip fuel g : Nat} {node : Node} {d : δ} (hip : ip.length < 16)
    (hsource : S.source src = some node) (hskips : lengthToSkip src dest node.kind = some skip)
    (hsendable : Sendable (lit "DEST ") dest) (hdest : firstWord dest = dest)
    (hmade : ∃ r d', S.mkdir dest r d d')
    (h : ∀ r d', S.mkdir dest r d d' →
      S.Leads P ((match node with
          | .folder _ => sendDirectoryOverNetwork fuel src skip
          | .file _ => sendFileOverNetwork fuel src skip) >>= fun _ ↦ copySource.finish)
        (receiveEntries strips dest g) { World.start d with disk := d' }) :
    S.Leads P (copySource fuel (some (src, dest, ip)) verbs lengthToSkip) (copyDest strips g)
      (World.start d) := by
  unfold copySource copyDest
  simp only [if_neg (show ¬ 16 ≤ ip.length by omega)]
  apply hP.stat
  rw [hsource]
  simp only [Option.map_some]
  apply hP.sendAck
  apply hP.acked rfl
  have hline : clip (maxPathSize + 10) (lit "DEST " ++ dest ++ lit "\n") =
      lit "DEST " ++ dest ++ lit "\n" := clip_eq_self (lt_trans hsendable.fits (by decide))
  simp only [if_true]
  rw [hline]
  apply hP.send
  simp only [if_true]
  apply hP.recvLine (t := lit "DEST " ++ dest ++ lit "\n") rfl
    (Nat.le_sub_one_of_lt hsendable.fits)
  have hstart : startsWith (lit "DEST ") (lit "DEST " ++ dest ++ lit "\n") = true := rfl
  have hdrop : (lit "DEST " ++ dest ++ lit "\n").drop 5 = dest ++ lit "\n" := rfl
  simp only [hsendable.cstr_line (show 0 ∉ lit "DEST " by decide)]
  rw [if_pos hstart, hdrop, hsendable.fields_name, hdest]
  apply hP.sendAck
  apply hP.acked rfl
  apply hP.mkdir
  · exact hmade
  · intro r d' hd'
    simp only [if_true, hskips]
    have hrest := h r d' hd'
    cases node with
    | file t => exact hrest
    | folder l => exact hrest

/-- Every joint run of a sender and a receiver comes to the end of both. -/
theorem Setting.Copies.leads {scanned : Option (Text × Text × Text)} {verbs : Text}
    {lengthToSkip : Text → Text → Kind → Option Nat} {strips : Bool} {src dest : Text}
    {skip fuel g : Nat} {node : Node} {d : δ}
    (h : S.Copies scanned lengthToSkip strips src dest skip node Q d)
    (hfuel : node.fuelFor ≤ fuel) (hg : node.announcements < g) :
    S.Leads (Finished Q) (copySource fuel scanned verbs lengthToSkip) (copyDest strips g)
      (World.start d) := by
  have hP := S.finished_final Q
  obtain ⟨ip, rfl, hip⟩ := h.scans
  obtain ⟨g, rfl⟩ : ∃ g', g = g' + 1 + node.announcements :=
    ⟨g - 1 - node.announcements, by omega⟩
  apply hP.destination hip h.announced.1.source h.skips h.sendable h.destination h.made
  intro r d' hd'
  exact Setting.sends_node (w := { World.start d with disk := d' }) (g := g)
    ⟨rfl, rfl⟩ (by simp [World.start]) h.announced hfuel (h.received r d' hd')

end Copy

/-! ### Sources that can be sent -/

/-- The entry that the names `p` lead to from a node. -/
def Node.Has : Node → List Text → Entry → Prop
  | .file t, p, e => p = [] ∧ e = .file t
  | .folder l, p, e => (p = [] ∧ e = .folder) ∨ l.Has p e

/-- The line that announces an entry. -/
def announcement (skip : Nat) (path : Text) : Entry → Text
  | .file _ => fileLine (path.drop skip)
  | .folder => dirLine (path.drop skip)

/-- The entry at the names `ws` from `src` can be sent: the line is received whole, and a file
has the size of one. -/
structure Sent (skip : Nat) (src : Text) (ws : List Text) (e : Entry) : Prop where
  names : ∀ w ∈ ws, FileName w
  fits : (announcement skip (below src ws) e).length < bufferSize
  size : ∀ t, e = .file t → t.length < 2 ^ 63

/-- No white space and no NUL. -/
def IsWord (t : Text) : Prop := ∀ b ∈ t, isSpace b = false ∧ b ≠ 0

instance (t : Text) : Decidable (IsWord t) :=
  List.decidableBAll (fun b ↦ isSpace b = false ∧ b ≠ 0) t

/-- The bytes of a path below a source. -/
private theorem mem_below {src : Text} {ws : List Text} {b : UInt8} (h : b ∈ below src ws) :
    b ∈ src ∨ b = slash ∨ ∃ w ∈ ws, b ∈ w := by
  obtain h | h := List.mem_append.mp h
  · exact .inl h
  · obtain ⟨w, hw, h⟩ := List.mem_flatMap.mp h
    obtain rfl | h := List.mem_cons.mp h
    · exact .inr (.inl rfl)
    · exact .inr (.inr ⟨w, hw, h⟩)

theorem isWord_below {src : Text} (h : IsWord src) {ws : List Text}
    (hnames : ∀ w ∈ ws, FileName w) (hspace : ∀ w ∈ ws, ∀ b ∈ w, isSpace b = false) :
    IsWord (below src ws) := by
  intro b hb
  obtain hb | rfl | ⟨w, hw, hb⟩ := mem_below hb
  · exact h b hb
  · decide
  · exact ⟨hspace w hw b hb, fun h0 ↦ (hnames w hw).noNul (h0 ▸ hb)⟩

theorem firstWord_of_isWord {t : Text} (h : IsWord t) : firstWord t = t := by
  by_cases hne : t = []
  · rw [hne]
    rfl
  · rw [firstWord, fields_of_noSpace (fun b hb ↦ (h b hb).1) hne]
    rfl

theorem sendable_of_isWord {verb name : Text} (h : IsWord name) (hne : name ≠ [])
    (hfits : (verb ++ name ++ lit "\n").length < bufferSize) : Sendable verb name := by
  refine ⟨?_, fun h0 ↦ (h 0 h0).2 rfl, hfits⟩
  rw [fields_of_noSpace (fun b hb ↦ (h b hb).1) hne]
  simp

private theorem lt_of_clip_lt {size : Nat} {t : Text} (hsize : bufferSize < size)
    (h : (clip size t).length < bufferSize) : t.length < bufferSize := by
  rw [clip, List.length_take] at h
  omega

/-- The name that is sent leaves room for the verb. -/
theorem Sent.length_lt {skip : Nat} {src : Text} {ws : List Text} {e : Entry}
    (h : Sent skip src ws e) : ((below src ws).drop skip).length + 5 < bufferSize := by
  have hfits := h.fits
  cases e with
  | file t =>
    have hline := lt_of_clip_lt (by decide) hfits
    simp only [List.length_append, lit] at hline
    simp at hline ⊢
    omega
  | folder =>
    have hline := lt_of_clip_lt (by decide) hfits
    simp only [List.length_append, lit] at hline
    simp at hline ⊢
    omega

section Sources

variable {S : Setting δ} {src : Text} {skip : Nat}

/-- Conditions on the paths of a folder's entries, entry by entry. -/
theorem each_of_has {G : List Text → Entry → Prop} (src : Text) (us : List Text) (l : Listing)
    (h : ∀ p e, l.Has p e → G (us ++ p) e) :
    Each (fun path node ↦ ∃ ws, path = below src ws ∧ ∀ p e, node.Has p e → G (ws ++ p) e)
      (below src us) l := by
  induction l generalizing us with
  | done => trivial
  | file n t rest ih =>
    refine ⟨⟨us ++ [n], below_slash src us n, ?_⟩, ih us (fun p e hp ↦ h p e (.inr hp))⟩
    rintro p e ⟨rfl, rfl⟩
    rw [List.append_nil]
    exact h [n] _ (.inl ⟨rfl, rfl⟩)
  | folder n sub rest ihsub ih =>
    have hsub : ∀ p e, sub.Has p e → G (us ++ [n] ++ p) e := by
      intro p e hp
      rw [List.append_assoc]
      exact h (n :: p) e (.inr (.inl ⟨p, rfl, hp⟩))
    refine ⟨⟨us ++ [n], below_slash src us n, ?_⟩, ?_,
      ih us (fun p e hp ↦ h p e (.inr (.inr hp)))⟩
    · rintro p e (⟨rfl, rfl⟩ | hp)
      · rw [List.append_nil]
        exact h [n] _ (.inl ⟨rfl, rfl⟩)
      · exact hsub p e hp
    · rw [below_slash]
      exact ihsub (us ++ [n]) hsub

theorem Each.and_mono {R R' R'' : Text → Node → Prop} {l : Listing} {dir : Text}
    (h : Each R dir l) (h' : Each R' dir l) (himp : ∀ p n, R p n → R' p n → R'' p n) :
    Each R'' dir l := by
  induction l generalizing dir with
  | done => trivial
  | file n t rest ih => exact ⟨himp _ _ h.1 h'.1, ih h.2 h'.2⟩
  | folder n sub rest ihsub ih => exact ⟨himp _ _ h.1 h'.1, ihsub h.2.1 h'.2.1, ih h.2.2 h'.2.2⟩

private theorem has_of_mem_names {l : Listing} {n : Text} (h : n ∈ names l) : ∃ e, l.Has [n] e := by
  induction l with
  | done => cases h
  | file m t rest ih =>
    obtain rfl | h := List.mem_cons.mp h
    · exact ⟨_, .inl ⟨rfl, rfl⟩⟩
    · obtain ⟨e, he⟩ := ih h
      exact ⟨e, .inr he⟩
  | folder m sub rest _ ih =>
    obtain rfl | h := List.mem_cons.mp h
    · exact ⟨_, .inl ⟨rfl, rfl⟩⟩
    · obtain ⟨e, he⟩ := ih h
      exact ⟨e, .inr (.inr he)⟩

private theorem isDots_of_fileName {n : Text} (h : FileName n) : isDots n = false := by
  simp [isDots, h.ne_dot, h.ne_dots]

/-- A file changes only in what it holds, not in its length. -/
def SameLength (t t' : Text) : Prop := t'.length = t.length

/-- No file changes in its length. -/
def Setting.Steady (S : Setting δ) : Prop :=
  ∀ t, (∃ t', S.changes t t') ∧ ∀ t', S.changes t t' → SameLength t t'

/-- An entry that can be sent is announced. -/
private theorem announces_of_sent (hsteady : S.Steady) (hword : IsWord src)
    (hskip : skip < src.length) (hsrc : src.length < bufferSize) {path : Text} {node : Node}
    (hsource : S.source path = some node) {ws : List Text} (hpath : path = below src ws)
    (hsent : ∀ p e, node.Has p e → Sent skip src (ws ++ p) e) : S.Announces skip path node := by
  have hhere : ∀ e, node.Has [] e → Sent skip src ws e := by
    intro e he
    simpa using hsent [] e he
  have hlen : src.length ≤ path.length := by
    rw [hpath, below, List.length_append]
    omega
  have hfields : fields (path.drop skip) ≠ [] := by
    obtain ⟨b, rest, hb⟩ := List.exists_cons_of_ne_nil
      (show src.drop skip ≠ [] by rw [Ne, List.drop_eq_nil_iff]; omega)
    have hmem : b ∈ src := List.mem_of_mem_drop (i := skip) (by simp [hb])
    rw [hpath, below, List.drop_append_of_le_length (by omega), hb]
    exact fields_ne_nil (hword b hmem).1 _
  have hnul : ∀ e, node.Has [] e → 0 ∉ path.drop skip := by
    intro e he h0
    have hmem : 0 ∈ below src ws := hpath ▸ List.mem_of_mem_drop h0
    obtain h0 | h0 | ⟨w, hw, h0⟩ := mem_below hmem
    · exact (hword 0 h0).2 rfl
    · cases h0
    · exact ((hhere e he).names w hw).noNul h0
  cases node with
  | file t =>
    have h := hhere _ ⟨rfl, rfl⟩
    have hfits := h.fits
    rw [announcement, fileLine, ← hpath] at hfits
    have hline := lt_of_clip_lt (by decide) hfits
    refine ⟨hsource, ?_, ⟨hfields, hnul _ ⟨rfl, rfl⟩, hline⟩, h.size t rfl, hsteady t⟩
    simp only [List.length_append, List.length_drop] at hline
    simp only [bufferSize, maxPathSize] at hline hsrc ⊢
    omega
  | folder l =>
    have h := hhere _ (.inl ⟨rfl, rfl⟩)
    have hfits := h.fits
    rw [announcement, dirLine, ← hpath] at hfits
    have hline := lt_of_clip_lt (by decide) hfits
    refine ⟨hsource, ?_, ⟨hfields, hnul _ (.inl ⟨rfl, rfl⟩), hline⟩, ?_⟩
    · simp only [List.length_append, List.length_drop] at hline
      simp only [bufferSize, maxPathSize] at hline hsrc ⊢
      omega
    · intro n hn
      obtain ⟨e, he⟩ := has_of_mem_names hn
      have hname := (hsent [n] e (.inr he)).names n (by simp)
      exact isDots_of_fileName hname

/-- A node all of whose entries can be sent is announced with everything below it. -/
theorem Node.announces_of_sent (hsteady : S.Steady) (hword : IsWord src)
    (hskip : skip < src.length) (hsrc : src.length < bufferSize) {node : Node}
    (hsource : node.Each (fun path n ↦ S.source path = some n) src)
    (hsent : ∀ p e, node.Has p e → Sent skip src p e) : node.Each (S.Announces skip) src := by
  refine ⟨Transfer.announces_of_sent hsteady hword hskip hsrc hsource.1 (below_nil src).symm
    hsent, ?_⟩
  cases node with
  | file t => trivial
  | folder l =>
    have heach := each_of_has src [] l (fun p e hp ↦ hsent p e (.inr hp))
    rw [below_nil] at heach
    refine heach.and_mono hsource.2 ?_
    rintro path n ⟨ws, hpath, hws⟩ hn
    exact Transfer.announces_of_sent hsteady hword hskip hsrc hn hpath hws

end Sources

end NetworkFileSystem.Transfer
