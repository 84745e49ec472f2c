import NetworkFileSystem.Base.Duet
import NetworkFileSystem.Storage.Walk
import NetworkFileSystem.Transfer.Programs

/-!
# The connection between two storage servers

What the programs of a copy share: the lines and bytes in flight, the file that the sender
has open, and the disk of the receiver. Lines arrive whole where they fit; contents arrive
in any pieces, and what was sent in two parts may arrive in one. What the calls of the
receiver do is a parameter, and so is whether a file may change while it is sent.
-/

namespace NetworkFileSystem.Transfer

open Base Protocol Storage

/-! ### In flight -/

/-- What a connection carries: lines keep their boundaries, contents do not. -/
inductive Item where
  | line (text : Text)
  | byte (b : UInt8)
  deriving DecidableEq

/-- What a packet adds to the connection. -/
def Packet.items : Packet → List Item
  | .line t => [.line t]
  | .content t => t.map .byte

/-- The bytes of a packet. -/
def Packet.bytes : Packet → Text
  | .line t => t
  | .content t => t

/-- One `recv` of up to `n` bytes: what it takes from the connection, and what is left. -/
inductive Receives (n : Nat) : List Item → Packet → List Item → Prop where
  | line {t : Text} {c : List Item} : t.length ≤ n → Receives n (.line t :: c) (.line t) c
  | cut {t : Text} {c : List Item} : n < t.length →
      Receives n (.line t :: c) (.line (t.take n)) (.line (t.drop n) :: c)
  | content {t : Text} {c : List Item} : t ≠ [] → t.length ≤ n →
      Receives n (t.map .byte ++ c) (.content t) c

/-- A `recv` of up to `n` bytes would not get more if more was sent. -/
inductive Available (n : Nat) : List Item → Prop where
  | line {t : Text} {c : List Item} : Available n (.line t :: c)
  | content {t : Text} {c : List Item} : t ≠ [] → t.length = n → Available n (t.map .byte ++ c)

variable {n : Nat} {c c' d : List Item} {x : Packet}

theorem Available.receives (h : Available n c) : ∃ x c', Receives n c x c' := by
  cases h with
  | @line t c =>
    by_cases ht : t.length ≤ n
    · exact ⟨_, _, .line ht⟩
    · exact ⟨_, _, .cut (by omega)⟩
  | content hne hlen => exact ⟨_, _, .content hne (by omega)⟩

theorem Available.append (h : Available n c) (d : List Item) : Available n (c ++ d) := by
  cases h with
  | line => exact .line
  | content hne hlen =>
    rw [List.append_assoc]
    exact .content hne hlen

theorem Receives.append (h : Receives n c x c') (d : List Item) :
    Receives n (c ++ d) x (c' ++ d) := by
  cases h with
  | line ht => exact .line ht
  | cut ht => exact .cut ht
  | content hne hlen =>
    rw [List.append_assoc]
    exact .content hne hlen

/-- Without anything in flight nothing is received. -/
theorem Receives.ne_nil (h : Receives n c x d) : c ≠ [] := by
  cases h with
  | line _ => exact List.cons_ne_nil _ _
  | cut _ => exact List.cons_ne_nil _ _
  | content hne _ => simp [hne]

private theorem map_byte_inj {t u : Text} (h : t.map Item.byte = u.map Item.byte) : t = u :=
  List.map_injective_iff.mpr (fun _ _ h ↦ Item.byte.inj h) h

/-- Bytes at the head of a connection, in a longer and a shorter part. -/
private theorem bytes_eq_append {t u : Text} (h : u.map Item.byte ++ d = t.map Item.byte ++ c)
    (hlen : u.length ≤ t.length) : ∃ v, t = u ++ v ∧ d = v.map .byte ++ c := by
  refine ⟨t.drop u.length, ?_, ?_⟩
  · have htake := congrArg (List.take u.length) h
    rw [List.take_left' (by simp), List.take_append_of_le_length (by simpa using hlen),
      ← List.map_take] at htake
    rw [← List.take_append_drop u.length t, ← map_byte_inj htake]
    simp
  · have hdrop := congrArg (List.drop u.length) h
    rwa [List.drop_left' (by simp), List.drop_append_of_le_length (by simpa using hlen),
      ← List.map_drop] at hdrop

/-- Of bytes, a `recv` takes some from the front. -/
theorem Receives.of_bytes {t : Text} (h : Receives n (t.map .byte ++ d) x c)
    (hne : t ≠ []) (hlen : t.length = n) :
    ∃ u v, u ≠ [] ∧ t = u ++ v ∧ x = .content u ∧ c = v.map .byte ++ d := by
  generalize hs : t.map Item.byte ++ d = s at h
  cases h with
  | line _ =>
    cases t with
    | nil => exact absurd rfl hne
    | cons b t => cases hs
  | cut _ =>
    cases t with
    | nil => exact absurd rfl hne
    | cons b t => cases hs
  | @content u _ hu hle =>
    obtain ⟨v, hv, hrest⟩ := bytes_eq_append hs.symm (by omega)
    exact ⟨u, v, hu, hv, rfl, hrest⟩

/-- What is available is received as if nothing had been sent behind it. -/
theorem Available.receives_of_append (ha : Available n c) {e : List Item}
    (h : Receives n (c ++ d) x e) : ∃ c', Receives n c x c' ∧ e = c' ++ d := by
  generalize hs : c ++ d = s at h
  cases ha with
  | @line t c =>
    cases h with
    | line ht =>
      cases hs
      exact ⟨_, .line ht, rfl⟩
    | cut ht =>
      cases hs
      exact ⟨_, .cut ht, rfl⟩
    | @content u c' hne _ =>
      cases u with
      | nil => exact absurd rfl hne
      | cons b u => cases hs
  | @content t c hne hlen =>
    rw [List.append_assoc] at hs
    rw [← hs] at h
    obtain ⟨u, v, hu, rfl, rfl, rfl⟩ := h.of_bytes hne hlen
    refine ⟨v.map .byte ++ c, ?_, by simp⟩
    rw [List.map_append, List.append_assoc]
    exact .content hu (by rw [List.length_append] at hlen; omega)

/-! ### The world -/

/-- What stands at a place of the sender's disk. -/
inductive Node where
  | file (content : Text)
  | folder (entries : Listing)
  deriving DecidableEq

/-- What `stat` tells of a node. -/
def Node.kind : Node → Kind
  | .file _ => .file
  | .folder _ => .folder

/-- The names that `readdir` delivers of a folder, other than `.` and `..`. -/
def names : Listing → List Text
  | .done => []
  | .file name _ rest => name :: names rest
  | .folder name _ rest => name :: names rest

/-- What surrounds the two programs: the disk that is read, how a file may change between
`fstat` and `read`, and what the calls of the receiver do. -/
structure Setting (δ : Type) where
  source : Text → Option Node
  changes : Text → Text → Prop
  mkdir : Text → Bool → δ → δ → Prop
  fopen : Text → Int → Bool → δ → δ → Prop
  write : Text → Text → Bool → δ → δ → Prop

/-- What the programs share. `reading` are the contents of the file that the sender has open,
and `commands` is what the receiver's main loop has got so far. -/
structure World (δ : Type) where
  down : List Item
  up : List Text
  reading : Text
  commands : List Packet
  disk : δ

variable {δ : Type}

/-- How the sender's calls are answered: no `send` or `recv` fails. -/
def Setting.answerSend (S : Setting δ) : (o : SendOp) → o.Res → World δ → World δ → Prop
  | .stat path, r, w, w' => w' = w ∧ r = (S.source path).map Node.kind
  | .opendir path, r, w, w' => w' = w ∧
      ((∃ l ns, S.source path = some (.folder l) ∧ r = some ns ∧
          ns.filter (fun n ↦ !isDots n) = names l) ∨
        ((∀ l, S.source path ≠ some (.folder l)) ∧ r = none))
  | .openFile path, r, w, w' =>
      (∃ t, S.source path = some (.file t) ∧ r = true ∧ w' = { w with reading := t }) ∨
        ((∀ t, S.source path ≠ some (.file t)) ∧ r = false ∧ w' = w)
  | .fstat, r, w, w' => r = some w.reading.length ∧
      ∃ t, S.changes w.reading t ∧ w' = { w with reading := t }
  | .read offset, r, w, w' => w' = w ∧ r = (w.reading.drop offset).take bufferSize
  | .send p, r, w, w' => r = true ∧ w' = { w with down := w.down ++ p.items }
  | .recv, r, w, w' => ∃ rest, w.up = r :: rest ∧ w' = { w with up := rest }

/-- How the receiver's calls are answered. -/
def Setting.answerRecv (S : Setting δ) : (o : RecvOp) → o.Res → World δ → World δ → Prop
  | .mkdir path, r, w, w' => ∃ d, S.mkdir path r w.disk d ∧ w' = { w with disk := d }
  | .fopen path n, r, w, w' => ∃ d, S.fopen path n r w.disk d ∧ w' = { w with disk := d }
  | .write path t, r, w, w' => ∃ d, S.write path t r w.disk d ∧ w' = { w with disk := d }
  | .sendAck, _, w, w' => w' = { w with up := w.up ++ [ackText] }
  | .recv n, r, w, w' => ∃ x c, Receives n w.down x c ∧ r = x.bytes ∧ w' = { w with down := c }
  | .recvCommand, r, w, w' => ∃ x c, Receives (bufferSize - 1) w.down x c ∧ r = x.bytes ∧
      w' = { w with down := c, commands := w.commands ++ [x] }

/-- The two programs in a setting. -/
def Setting.duet (S : Setting δ) : Duet SendOp RecvOp SendOp.Res RecvOp.Res (World δ) where
  answer₁ := S.answerSend
  answer₂ := S.answerRecv

/-- The sender's calls that can be answered whatever the receiver does. -/
def Setting.readySend (S : Setting δ) (o : SendOp) (w : World δ) : Prop :=
  match o with
  | .opendir path => ∀ l, S.source path = some (.folder l) →
      ∀ n ∈ names l, isDots n = false
  | .fstat => ∃ t, S.changes w.reading t
  | .recv => w.up ≠ []
  | _ => True

/-- The receiver's calls that can be answered whatever the sender does. -/
def Setting.readyRecv (S : Setting δ) (o : RecvOp) (w : World δ) : Prop :=
  match o with
  | .mkdir path => ∃ r d, S.mkdir path r w.disk d
  | .fopen path n => ∃ r d, S.fopen path n r w.disk d
  | .write path t => ∃ r d, S.write path t r w.disk d
  | .sendAck => True
  | .recv n => Available n w.down
  | .recvCommand => Available (bufferSize - 1) w.down

/-! ### Independence -/

private theorem World.eq_of_same {v : World δ} {rest : List Text} {t : Text}
    (hv : v.reading = t) (hup : v.up = [] ++ rest) :
    v = { v with down := v.down ++ [], up := rest, reading := t } := by
  subst hv
  rw [List.nil_append] at hup
  subst hup
  simp

/-- A call of the sender takes acknowledgements, adds to the connection and may change the open
file; it does the same in every world that gives it these. -/
theorem Setting.answerSend_spec {S : Setting δ} {o : SendOp} {r : o.Res}
    {w w' : World δ} (h : S.answerSend o r w w') :
    ∃ items taken, w.up = taken ++ w'.up ∧
      w' = { w with down := w.down ++ items, up := w'.up, reading := w'.reading } ∧
      (S.readySend o = (fun v ↦ v.up ≠ []) ∧ taken.length = 1 ∨ taken = []) ∧
      ∀ (v : World δ) (rest : List Text), v.reading = w.reading → v.up = taken ++ rest →
        S.answerSend o r v { v with down := v.down ++ items, up := rest, reading := w'.reading } := by
  cases o with
  | stat path =>
    obtain ⟨rfl, hr⟩ := h
    exact ⟨[], [], rfl, by simp, .inr rfl,
      fun v rest hv hup ↦ ⟨(World.eq_of_same hv hup).symm, hr⟩⟩
  | opendir path =>
    obtain ⟨rfl, hr⟩ := h
    exact ⟨[], [], rfl, by simp, .inr rfl,
      fun v rest hv hup ↦ ⟨(World.eq_of_same hv hup).symm, hr⟩⟩
  | openFile path =>
    obtain ⟨t, hsource, hr, rfl⟩ | ⟨hsource, hr, rfl⟩ := h
    · refine ⟨[], [], rfl, by simp, .inr rfl, fun v rest _ hup ↦ .inl ⟨t, hsource, hr, ?_⟩⟩
      rw [List.nil_append] at hup
      simp [hup]
    · exact ⟨[], [], rfl, by simp, .inr rfl,
        fun v rest hv hup ↦ .inr ⟨hsource, hr, (World.eq_of_same hv hup).symm⟩⟩
  | fstat =>
    obtain ⟨hr, t, ht, rfl⟩ := h
    refine ⟨[], [], rfl, by simp, .inr rfl, fun v rest hv hup ↦ ⟨by rw [hv, hr], t, ?_, ?_⟩⟩
    · rwa [hv]
    · rw [List.nil_append] at hup
      simp [hup]
  | read offset =>
    obtain ⟨rfl, hr⟩ := h
    exact ⟨[], [], rfl, by simp, .inr rfl,
      fun v rest hv hup ↦ ⟨(World.eq_of_same hv hup).symm, by rw [hv, hr]⟩⟩
  | send p =>
    obtain ⟨hr, rfl⟩ := h
    refine ⟨p.items, [], rfl, rfl, .inr rfl, fun v rest hv hup ↦ ⟨hr, ?_⟩⟩
    rw [List.nil_append] at hup
    simp [← hv, hup]
  | recv =>
    obtain ⟨rest, hup, rfl⟩ := h
    refine ⟨[], [r], hup, by simp, .inl ⟨rfl, rfl⟩, fun v rest' hv hup' ↦ ⟨rest', hup', ?_⟩⟩
    simp [← hv]

/-- A call of the receiver takes from the connection, adds acknowledgements and may change the
disk; more on the connection makes no difference. -/
theorem Setting.answerRecv_spec {S : Setting δ} {o : RecvOp} {r : o.Res}
    {w w' : World δ} (h : S.answerRecv o r w w') :
    ∃ acks got,
      w' = { w' with reading := w.reading, up := w.up ++ acks, commands := w.commands ++ got } ∧
      ∀ (v : World δ) (more : List Item), v.disk = w.disk → v.down = w.down ++ more →
        S.answerRecv o r v { v with
          down := w'.down ++ more, up := v.up ++ acks,
          commands := v.commands ++ got, disk := w'.disk } := by
  cases o with
  | mkdir path =>
    obtain ⟨d, hd, rfl⟩ := h
    refine ⟨[], [], by simp, fun v more hv hdown ↦ ⟨d, by rwa [hv], ?_⟩⟩
    simp [hdown]
  | fopen path n =>
    obtain ⟨d, hd, rfl⟩ := h
    refine ⟨[], [], by simp, fun v more hv hdown ↦ ⟨d, by rwa [hv], ?_⟩⟩
    simp [hdown]
  | write path t =>
    obtain ⟨d, hd, rfl⟩ := h
    refine ⟨[], [], by simp, fun v more hv hdown ↦ ⟨d, by rwa [hv], ?_⟩⟩
    simp [hdown]
  | sendAck =>
    cases h
    refine ⟨[ackText], [], by simp, fun v more hv hdown ↦ ?_⟩
    simp [Setting.answerRecv, ← hdown, ← hv]
  | recv n =>
    obtain ⟨x, c, hc, hr, rfl⟩ := h
    refine ⟨[], [], by simp, fun v more hv hdown ↦ ⟨x, c ++ more, ?_, hr, ?_⟩⟩
    · rw [hdown]
      exact hc.append more
    · simp [← hv]
  | recvCommand =>
    obtain ⟨x, c, hc, hr, rfl⟩ := h
    refine ⟨[], [x], by simp, fun v more hv hdown ↦ ⟨x, c ++ more, ?_, hr, ?_⟩⟩
    · rw [hdown]
      exact hc.append more
    · simp [← hv]

/-- What a call of the receiver would get from a connection, it gets from a shorter one on
which it is ready. -/
private theorem Setting.answerRecv_of_append {S : Setting δ} {o : RecvOp} {r : o.Res}
    {v v' w : World δ} {more : List Item} (h : S.answerRecv o r v v') (hready : S.readyRecv o w)
    (hdisk : v.disk = w.disk) (hdown : v.down = w.down ++ more) :
    ∃ w' acks got, S.answerRecv o r w w' ∧
      w' = { w' with reading := w.reading, up := w.up ++ acks, commands := w.commands ++ got } ∧
      v' = { v with
        down := w'.down ++ more, up := v.up ++ acks,
        commands := v.commands ++ got, disk := w'.disk } := by
  cases o with
  | mkdir path =>
    obtain ⟨d, hd, rfl⟩ := h
    exact ⟨_, [], [], ⟨d, by rwa [← hdisk], rfl⟩, by simp, by simp [hdown]⟩
  | fopen path n =>
    obtain ⟨d, hd, rfl⟩ := h
    exact ⟨_, [], [], ⟨d, by rwa [← hdisk], rfl⟩, by simp, by simp [hdown]⟩
  | write path t =>
    obtain ⟨d, hd, rfl⟩ := h
    exact ⟨_, [], [], ⟨d, by rwa [← hdisk], rfl⟩, by simp, by simp [hdown]⟩
  | sendAck =>
    cases h
    exact ⟨_, [ackText], [], rfl, by simp, by simp [← hdown, ← hdisk]⟩
  | recv n =>
    obtain ⟨x, c, hc, hr, rfl⟩ := h
    rw [hdown] at hc
    obtain ⟨c', hc', rfl⟩ := Available.receives_of_append hready hc
    exact ⟨_, [], [], ⟨x, c', hc', hr, rfl⟩, by simp, by simp [← hdisk]⟩
  | recvCommand =>
    obtain ⟨x, c, hc, hr, rfl⟩ := h
    rw [hdown] at hc
    obtain ⟨c', hc', rfl⟩ := Available.receives_of_append hready hc
    exact ⟨_, [], [x], ⟨x, c', hc', hr, rfl⟩, by simp, by simp [← hdisk]⟩

private theorem Setting.readySend_answered {S : Setting δ} {o : SendOp} {w : World δ}
    (h : S.readySend o w) : ∃ r w', S.answerSend o r w w' := by
  cases o with
  | stat path => exact ⟨_, _, rfl, rfl⟩
  | opendir path =>
    by_cases hl : ∃ l, S.source path = some (.folder l)
    · obtain ⟨l, hl⟩ := hl
      refine ⟨_, _, rfl, .inl ⟨l, names l, hl, rfl, List.filter_eq_self.mpr ?_⟩⟩
      intro n hn
      simpa using h l hl n hn
    · exact ⟨_, _, rfl, .inr ⟨fun l hl' ↦ hl ⟨l, hl'⟩, rfl⟩⟩
  | openFile path =>
    by_cases ht : ∃ t, S.source path = some (.file t)
    · obtain ⟨t, ht⟩ := ht
      exact ⟨_, _, .inl ⟨t, ht, rfl, rfl⟩⟩
    · exact ⟨_, _, .inr ⟨fun t ht' ↦ ht ⟨t, ht'⟩, rfl, rfl⟩⟩
  | fstat =>
    obtain ⟨t, ht⟩ := h
    exact ⟨_, _, rfl, t, ht, rfl⟩
  | read offset => exact ⟨_, _, rfl, rfl⟩
  | send p => exact ⟨_, _, rfl, rfl⟩
  | recv =>
    obtain ⟨a, rest, hup⟩ := List.exists_cons_of_ne_nil h
    exact ⟨a, _, rest, hup, rfl⟩

private theorem Setting.readyRecv_answered {S : Setting δ} {o : RecvOp} {w : World δ}
    (h : S.readyRecv o w) : ∃ r w', S.answerRecv o r w w' := by
  cases o with
  | mkdir path =>
    obtain ⟨r, d, hd⟩ := h
    exact ⟨r, _, d, hd, rfl⟩
  | fopen path n =>
    obtain ⟨r, d, hd⟩ := h
    exact ⟨r, _, d, hd, rfl⟩
  | write path t =>
    obtain ⟨r, d, hd⟩ := h
    exact ⟨r, _, d, hd, rfl⟩
  | sendAck => exact ⟨(), _, rfl⟩
  | recv n =>
    obtain ⟨x, c, hc⟩ := Available.receives h
    exact ⟨_, _, x, c, hc, rfl, rfl⟩
  | recvCommand =>
    obtain ⟨x, c, hc⟩ := Available.receives h
    exact ⟨_, _, x, c, hc, rfl, rfl⟩

/-- What the sender's calls need is not taken away by the receiver, nor the other way round. -/
theorem Setting.independent (S : Setting δ) : S.duet.Independent S.readySend S.readyRecv where
  exchange := by
    intro o r o' r' w w₁ w₂ h₁ h₂
    obtain ⟨items, taken, hup, hw₁, -, hsend⟩ := Setting.answerSend_spec h₁
    obtain ⟨acks, got, hw₂, hrecv⟩ := Setting.answerRecv_spec h₂
    have hr := hrecv w₁ items (by rw [hw₁]) (by rw [hw₁])
    have hs := hsend w₂ (w₁.up ++ acks) (by rw [hw₂]) (by rw [hw₂, hup, List.append_assoc])
    refine ⟨_, hr, ?_⟩
    have hcommands : w₁.commands = w.commands := by rw [hw₁]
    have hgot : w₂.commands = w.commands ++ got := by rw [hw₂]
    rw [hcommands, ← hgot]
    exact hs
  answered₁ := Setting.readySend_answered
  stays₁ := by
    intro o o' r' w w' hready h
    obtain ⟨acks, got, hw', -⟩ := Setting.answerRecv_spec h
    rw [hw']
    cases o with
    | recv =>
      have hne : w.up ≠ [] := hready
      simp [Setting.readySend, hne]
    | _ => exact hready
  already₁ := by
    intro o r o' r' w w₂ w₃ hready h₂ h₁
    obtain ⟨acks, got, hw₂, hrecv⟩ := Setting.answerRecv_spec h₂
    obtain ⟨items, taken, hup, hw₃, htaken, hsend⟩ := Setting.answerSend_spec h₁
    have hup₂ : w₂.up = w.up ++ acks := by rw [hw₂]
    obtain ⟨rest, hrest⟩ : ∃ rest, w.up = taken ++ rest := by
      obtain ⟨hr, hone⟩ | rfl := htaken
      · rw [hr] at hready
        obtain ⟨a, rest, hw⟩ := List.exists_cons_of_ne_nil hready
        obtain ⟨b, rfl⟩ := List.length_eq_one_iff.mp hone
        rw [hup₂, hw] at hup
        exact ⟨rest, by rw [hw]; exact congrArg (· :: rest) (List.cons.inj hup).1⟩
      · exact ⟨w.up, rfl⟩
    have hs := hsend w rest (by rw [hw₂]) hrest
    refine ⟨_, hs, ?_⟩
    have hr := hrecv { w with down := w.down ++ items, up := rest, reading := w₃.reading } items
      rfl rfl
    have hsame : rest ++ acks = w₃.up := by
      rw [hup₂, hrest, List.append_assoc] at hup
      exact List.append_cancel_left hup
    have hw : w₃ = { w with
        down := w₂.down ++ items, up := rest ++ acks, reading := w₃.reading,
        commands := w.commands ++ got, disk := w₂.disk } := by
      rw [hsame, hw₃, hw₂]
    rw [hw]
    exact hr
  answered₂ := Setting.readyRecv_answered
  stays₂ := by
    intro o o' r' w w' hready h
    obtain ⟨items, taken, -, hw', -, -⟩ := Setting.answerSend_spec h
    rw [hw']
    cases o with
    | recv n => exact Available.append hready items
    | recvCommand => exact Available.append hready items
    | _ => exact hready
  already₂ := by
    intro o r o' r' w w₁ w₃ hready h₁ h₂
    obtain ⟨items, taken, hup, hw₁, -, hsend⟩ := Setting.answerSend_spec h₁
    obtain ⟨w₂, acks, got, hans, hw₂, hw₃⟩ :=
      Setting.answerRecv_of_append h₂ hready (by rw [hw₁]) (by rw [hw₁])
    refine ⟨w₂, hans, ?_⟩
    have hs := hsend w₂ (w₁.up ++ acks) (by rw [hw₂]) (by rw [hw₂, hup, List.append_assoc])
    have hw : w₃ = { w₂ with
        down := w₂.down ++ items, up := w₁.up ++ acks, reading := w₁.reading } := by
      have hcommands : w₁.commands = w.commands := by rw [hw₁]
      have hgot : w₂.commands = w.commands ++ got := by rw [hw₂]
      rw [hw₃, hcommands, ← hgot]
    rw [hw]
    exact hs

end NetworkFileSystem.Transfer
