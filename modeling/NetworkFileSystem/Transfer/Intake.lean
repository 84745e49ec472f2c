import Mathlib.Algebra.Group.Int.Defs
import NetworkFileSystem.Base.CharArray
import NetworkFileSystem.Base.Outcomes
import NetworkFileSystem.Transfer.Programs

/-!
# How much of the stream a received file takes

`helper.c:943–1010`, closer to the code than `Transfer/Programs.lean`: the two loops with their
counters and the array that a block is put together in. On answers that are not longer than what
was asked for this is the program used elsewhere. A connection that brings the announced bytes
in pieces of any size is left exactly behind them, with one acknowledgement for every block.
-/

namespace NetworkFileSystem.Transfer.Intake

open Base Protocol Prog

/-- The inner loop at `helper.c:975–985`. The answer `none` is the jump to `cleanup`. -/
def receiveChunk (toReceive : Nat) :
    Nat → Nat → CharArray bufferSize → RecvProg (Option (CharArray bufferSize × Nat))
  | 0, _, _ => .abort
  | fuel + 1, chunkReceived, buffer =>
    if chunkReceived < toReceive then do
      let bytes ← recvCall (.recv (toReceive - chunkReceived))
      if bytes = [] then pure none
      else do
        let buffer ← Prog.ofOption (buffer.write chunkReceived bytes)
        receiveChunk toReceive fuel (chunkReceived + bytes.length) buffer
    else pure (some (buffer, chunkReceived))

/-- The outer loop at `helper.c:968–1001`. -/
def receiveContents (dest : Text) (fileSize : Int) : Nat → Nat → RecvProg Unit
  | 0, _ => .abort
  | fuel + 1, totalReceived =>
    if totalReceived < fileSize then do
      let remaining := (fileSize - totalReceived).toNat
      let toReceive := if remaining < bufferSize then remaining else bufferSize
      match ← receiveChunk toReceive fuel 0 (CharArray.zeros bufferSize) with
      | none => pure ()
      | some (buffer, chunkReceived) =>
        if ← recvCall (.write dest (buffer.bytes.take chunkReceived)) then
          recvCall .sendAck
          receiveContents dest fileSize fuel (totalReceived + chunkReceived)
    else pure ()

/-- `helper.c:943–1010`. -/
def receiveAndSaveFile (fuel : Nat) (dest : Text) : RecvProg Unit := do
  let bytes ← recvCall (.recv (bufferSize - 1))
  if bytes = [] then pure ()
  else do
    let buffer ← Prog.ofOption
      (((CharArray.zeros bufferSize).store 0 bytes).poke bytes.length 0)
    let fileSize := atol buffer.text
    recvCall .sendAck
    if ← recvCall (.fopen dest fileSize) then
      receiveContents dest fileSize fuel 0

/-! ### The program that is used elsewhere -/

/-- A receive brings no more than it asks for. -/
def Fits : (o : RecvOp) → o.Res → Prop
  | .recv size, bytes => bytes.length ≤ size
  | _, _ => True

/-- A whole block in the array is the list of its bytes. -/
def SameBlock (toReceive : Nat) : Option (CharArray bufferSize × Nat) → Option Text → Prop
  | none, none => True
  | some (buffer, chunkReceived), some chunk =>
    chunkReceived = toReceive ∧ buffer.bytes.take toReceive = chunk
  | _, _ => False

/-- A piece is put behind what the array holds. -/
theorem exists_write (buffer : CharArray bufferSize) {chunkReceived : Nat} {bytes : Text}
    (h : chunkReceived + bytes.length ≤ bufferSize) :
    ∃ buffer', buffer.write chunkReceived bytes = some buffer' ∧
      buffer'.bytes.take (chunkReceived + bytes.length) =
        buffer.bytes.take chunkReceived ++ bytes :=
  ⟨_, if_pos h, CharArray.take_store_end h⟩

theorem agree_receiveChunk (buffer : CharArray bufferSize)
    {toReceive fuel fuel' chunkReceived : Nat} (hsize : toReceive ≤ bufferSize)
    (hle : chunkReceived ≤ toReceive) (hfuel : toReceive - chunkReceived < fuel)
    (hfuel' : toReceive - chunkReceived ≤ fuel') :
    Agree Fits (SameBlock toReceive) (receiveChunk toReceive fuel chunkReceived buffer)
      (Transfer.receiveChunk fuel' (toReceive - chunkReceived)
        (buffer.bytes.take chunkReceived)) := by
  induction fuel generalizing fuel' chunkReceived buffer with
  | zero => omega
  | succ fuel ih =>
    rw [receiveChunk]
    split
    · next hlt =>
      obtain ⟨fuel', rfl⟩ : ∃ m, fuel' = m + 1 := ⟨fuel' - 1, by omega⟩
      rw [Transfer.receiveChunk, if_neg (by omega)]
      refine agree_call_bind (fun bytes hbytes ↦ ?_)
      change bytes.length ≤ toReceive - chunkReceived at hbytes
      split
      · exact agree_pure trivial
      · next hne =>
        have hpos := List.length_pos_iff.mpr hne
        have hroom : chunkReceived + bytes.length ≤ bufferSize := by omega
        obtain ⟨buffer', hwrite, hbuffer'⟩ := exists_write buffer hroom
        rw [hwrite, ← hbuffer', Nat.sub_sub]
        exact ih buffer' (by omega) (by omega) (by omega)
    · next hge =>
      have hdone : chunkReceived = toReceive := by omega
      have hret : Transfer.receiveChunk fuel' (toReceive - chunkReceived)
          (buffer.bytes.take chunkReceived) = pure (some (buffer.bytes.take chunkReceived)) := by
        rw [hdone, Nat.sub_self]
        cases fuel' with
        | zero => rfl
        | succ m => rw [Transfer.receiveChunk, if_pos rfl]
      rw [hret]
      exact agree_pure ⟨hdone, by rw [hdone]⟩

theorem agree_receiveContents (dest : Text) (fileSize totalReceived : Nat) {fuel fuel' : Nat}
    (hfuel : fileSize - totalReceived + 1 < fuel) (hfuel' : fileSize - totalReceived ≤ fuel') :
    Agree Fits Eq (receiveContents dest fileSize fuel totalReceived)
      (Transfer.receiveContents dest fuel' (fileSize - totalReceived)) := by
  induction fuel generalizing fuel' totalReceived with
  | zero => omega
  | succ fuel ih =>
    have hbuffer : bufferSize = 1024 := rfl
    rw [receiveContents]
    split
    · next hlt =>
      have hlt : totalReceived < fileSize := by exact_mod_cast hlt
      obtain ⟨fuel', rfl⟩ : ∃ m, fuel' = m + 1 := ⟨fuel' - 1, by omega⟩
      have hsize : (if ((fileSize : Int) - totalReceived).toNat < bufferSize
          then ((fileSize : Int) - totalReceived).toNat else bufferSize) =
          min (fileSize - totalReceived) bufferSize := by
        split <;> omega
      rw [Transfer.receiveContents, if_neg (by omega)]
      dsimp only
      rw [hsize]
      have hblocks := agree_receiveChunk (CharArray.zeros bufferSize)
        (Nat.min_le_right (fileSize - totalReceived) bufferSize) (Nat.zero_le _)
        (by omega : _ < fuel) (Nat.le_refl _)
      refine hblocks.bind (fun block chunk hblock ↦ ?_)
      match block, chunk, hblock with
      | none, none, _ => exact agree_pure rfl
      | some (buffer, _), some _, ⟨rfl, rfl⟩ =>
        refine agree_call_bind (fun ok _ ↦ ?_)
        split
        · have hlen := buffer.length_bytes
          rw [List.length_take, hlen, Nat.min_eq_left (Nat.min_le_right _ _), Nat.sub_sub]
          exact agree_call_bind (fun _ _ ↦ ih _ (by omega) (by omega))
        · exact agree_pure rfl
    · next hge =>
      have hdone : fileSize - totalReceived = 0 := by omega
      rw [hdone]
      cases fuel' with
      | zero => exact agree_pure rfl
      | succ m =>
        rw [Transfer.receiveContents, if_pos rfl]
        exact agree_pure rfl

/-- The announced size is one of a `long`. -/
theorem atol_lt (s : Text) : atol s < 2 ^ 63 := by
  unfold atol
  dsimp only
  split <;> omega

/-- The string in the array is what the first receive brought, up to a NUL. -/
theorem ofOption_poke_bind (buffer : CharArray bufferSize) {bytes : Text}
    (h : bytes.length < bufferSize) (k : Text → RecvProg Unit) :
    (Prog.ofOption ((buffer.store 0 bytes).poke bytes.length 0) >>=
      fun buffer ↦ k buffer.text) = k (cstr bytes) := by
  have hindex : (0 : Int) ≤ bytes.length ∧ (bytes.length : Int) < bufferSize := by omega
  have hsome : ((buffer.store 0 bytes).poke bytes.length 0).isSome :=
    CharArray.isSome_poke.mpr hindex
  obtain ⟨buffer', hpoke⟩ := Option.isSome_iff_exists.mp hsome
  rw [hpoke, ← CharArray.text_poke hpoke]
  rfl

/-- With fuel for every `long`, the program with counters and array does what the one of
`Transfer/Programs.lean` does. -/
theorem agree_receiveAndSaveFile (dest : Text) {fuel : Nat} (hfuel : 2 ^ 63 < fuel) :
    Agree Fits Eq (receiveAndSaveFile fuel dest) (Transfer.receiveAndSaveFile dest) := by
  refine agree_call_bind (fun bytes hbytes ↦ ?_)
  split
  · exact agree_pure rfl
  · have hbuffer : bufferSize = 1024 := rfl
    have hlt : bytes.length < bufferSize := by
      change bytes.length ≤ bufferSize - 1 at hbytes
      omega
    rw [ofOption_poke_bind _ hlt (fun text ↦ do
      recvCall .sendAck
      if ← recvCall (.fopen dest (atol text)) then receiveContents dest (atol text) fuel 0)]
    refine agree_call_bind (fun _ _ ↦ agree_call_bind (fun ok _ ↦ ?_))
    split
    · have hsize := atol_lt (cstr bytes)
      obtain ⟨n, hn⟩ | hneg : (∃ n : Nat, atol (cstr bytes) = n) ∨ atol (cstr bytes) < 0 := by
        rcases Int.lt_or_le (atol (cstr bytes)) 0 with h | h
        · exact .inr h
        · exact .inl ⟨_, (Int.toNat_of_nonneg h).symm⟩
      · rw [hn, Int.toNat_natCast]
        exact agree_receiveContents dest n 0 (by omega) (by omega)
      · obtain ⟨fuel, rfl⟩ : ∃ m, fuel = m + 1 := ⟨fuel - 1, by omega⟩
        rw [receiveContents, if_neg (by omega), Int.toNat_of_nonpos (by omega)]
        exact agree_pure rfl
    · exact agree_pure rfl

/-- Both have the same runs in which no receive brings more than it asks for. -/
theorem exec_receiveAndSaveFile_iff (dest : Text) {fuel : Nat} (hfuel : 2 ^ 63 < fuel)
    {tr : List (Event RecvOp RecvOp.Res)} (htr : ∀ e ∈ tr, Fits e.1 e.2) {out : Option Unit} :
    Exec (receiveAndSaveFile fuel dest) tr out ↔ Exec (Transfer.receiveAndSaveFile dest) tr out :=
  (agree_receiveAndSaveFile dest hfuel).exec_iff htr

/-! ### A connection that keeps count -/

/-- The connection and the file, with what has happened so far. -/
structure Connection where
  /-- The size message, until it is received. -/
  announced : Option Text
  /-- The bytes behind it that have not been received. -/
  stream : Text
  /-- How many of them have been received. -/
  taken : Nat
  /-- The end of the furthest request for one of them. -/
  requested : Nat
  /-- The open file. -/
  opened : Option Text
  file : Text
  /-- How many bytes were received and written when each acknowledgement was sent. -/
  acks : List (Nat × Nat)

/-- The size message comes alone, and the bytes behind it in pieces of any size; all calls on the
file succeed. -/
def answers : Answers RecvOp RecvOp.Res Connection
  | .recv size, bytes, w, w' =>
    match w.announced with
    | some msg => msg.length ≤ size ∧ bytes = msg ∧ w' = { w with announced := none }
    | none => bytes ≠ [] ∧ bytes.length ≤ size ∧ bytes <+: w.stream ∧
        w' = { w with
          stream := w.stream.drop bytes.length
          taken := w.taken + bytes.length
          requested := max w.requested (w.taken + size) }
  | .sendAck, _, w, w' => w' = { w with acks := w.acks ++ [(w.taken, w.file.length)] }
  | .fopen path _, ok, w, w' => ok = true ∧ w' = { w with opened := some path, file := [] }
  | .write path bytes, ok, w, w' =>
    w.opened = some path ∧ ok = true ∧ w' = { w with file := w.file ++ bytes }
  | .mkdir _, _, _, _ => False
  | .recvCommand, _, _, _ => False

/-- Behind the size message a receive brings some of what it asks for. -/
theorem answers_recv {size : Nat} {bytes : Text} {w w' : Connection} (h : w.announced = none) :
    answers (.recv size) bytes w w' ↔
      bytes ≠ [] ∧ bytes.length ≤ size ∧ bytes <+: w.stream ∧
        w' = { w with
          stream := w.stream.drop bytes.length
          taken := w.taken + bytes.length
          requested := max w.requested (w.taken + size) } := by
  rw [answers, h]

/-- Where block `k` of a file of `n` bytes starts; there is no block behind the last one. -/
def blockStart (n k : Nat) : Nat := min (k * bufferSize) n

/-- One acknowledgement for the size and one for each of the first `k` blocks, sent when as much
has been received as written. -/
def acksAfter (n k : Nat) : List (Nat × Nat) :=
  (List.range (1 + k)).map (fun i ↦ (blockStart n i, blockStart n i))

/-- The connection after `k` blocks. -/
structure AfterBlocks (dest bytes : Text) (n k : Nat) (w : Connection) : Prop where
  announced : w.announced = none
  stream : w.stream = bytes.drop (blockStart n k)
  taken : w.taken = blockStart n k
  requested : w.requested ≤ blockStart n k
  opened : w.opened = some dest
  file : w.file = bytes.take (blockStart n k)
  acks : w.acks = acksAfter n k

/-- A block is received up to its end, whatever pieces it comes in. -/
theorem wp_receiveChunk {toReceive fuel chunkReceived : Nat} {buffer : CharArray bufferSize}
    {Q : Option (CharArray bufferSize × Nat) → Connection → Prop} {block : Text}
    {start w : Connection} (hblock : block.length = toReceive) (hsize : toReceive ≤ bufferSize)
    (hle : chunkReceived ≤ toReceive) (hfuel : toReceive - chunkReceived < fuel)
    (hstart : start.announced = none) (hstream : block <+: start.stream)
    (hbuffer : buffer.bytes.take chunkReceived = block.take chunkReceived)
    (hw : ∃ r, r ≤ max start.requested (start.taken + toReceive) ∧
      w = { start with
        stream := start.stream.drop chunkReceived
        taken := start.taken + chunkReceived
        requested := r })
    (hQ : ∀ buffer r, buffer.bytes.take toReceive = block →
      r ≤ max start.requested (start.taken + toReceive) →
      Q (some (buffer, toReceive)) { start with
        stream := start.stream.drop toReceive
        taken := start.taken + toReceive
        requested := r }) :
    wp answers (receiveChunk toReceive fuel chunkReceived buffer) Q w := by
  induction fuel generalizing chunkReceived buffer w with
  | zero => omega
  | succ fuel ih =>
    obtain ⟨r, hr, hw⟩ := hw
    rw [receiveChunk]
    split
    · next hlt =>
      have hnone : w.announced = none := hw ▸ hstart
      have hlen : (block.drop chunkReceived).length = toReceive - chunkReceived := by
        rw [List.length_drop, hblock]
      have hrest : block.drop chunkReceived <+: w.stream := by
        obtain ⟨rest, hrest⟩ := hstream
        rw [hw, ← hrest, List.drop_append_of_le_length (by omega)]
        exact List.prefix_append _ _
      refine wp_call_bind.mpr ⟨⟨block.drop chunkReceived, _, (answers_recv hnone).mpr
        ⟨List.ne_nil_of_length_pos (by omega), hlen.le, hrest, rfl⟩⟩, fun bytes w' hans ↦ ?_⟩
      obtain ⟨hne, hbytes, hpre, rfl⟩ := (answers_recv hnone).mp hans
      have hpart : bytes = (block.drop chunkReceived).take bytes.length :=
        List.prefix_iff_eq_take.mp (List.prefix_of_prefix_length_le hpre hrest (hlen ▸ hbytes))
      have hfit : chunkReceived + bytes.length ≤ bufferSize := by omega
      have hpos := List.length_pos_iff.mpr hne
      obtain ⟨buffer', hwrite, hbuffer'⟩ := exists_write buffer hfit
      rw [if_neg hne]
      refine wp_ofOption_bind hwrite (ih (by omega) (by omega) ?_
        ⟨max r (start.taken + chunkReceived + (toReceive - chunkReceived)), by omega, ?_⟩)
      · rw [hbuffer', hbuffer, List.take_add, ← hpart]
      · simp only [hw, List.drop_drop, Nat.add_assoc]
    · next hge =>
      obtain rfl : chunkReceived = toReceive := by omega
      rw [List.take_of_length_le (l := block) hblock.le] at hbuffer
      rw [hw]
      exact hQ buffer r hbuffer hr

/-- How many blocks there are, the last one possibly shorter. -/
def blockCount (n : Nat) : Nat := (n + (bufferSize - 1)) / bufferSize

theorem blockStart_succ {n k : Nat} (h : blockStart n k < n) :
    blockStart n (k + 1) = blockStart n k + min (n - blockStart n k) bufferSize := by
  rw [blockStart] at h ⊢
  rw [blockStart, Nat.add_mul, Nat.one_mul]
  omega

theorem blockStart_lt_iff {n k : Nat} : blockStart n k < n ↔ k < blockCount n := by
  have hbuffer : bufferSize = 1024 := rfl
  rw [blockStart, blockCount, hbuffer]
  omega

theorem acksAfter_succ (n k : Nat) :
    acksAfter n (k + 1) = acksAfter n k ++ [(blockStart n (k + 1), blockStart n (k + 1))] := by
  rw [acksAfter, acksAfter, ← Nat.add_assoc, List.range_succ, List.map_append, Nat.add_comm 1 k]
  rfl

/-- One round of the outer loop, and the rounds behind it. -/
theorem wp_receiveContents {dest bytes : Text} {n k fuel : Nat} {w : Connection}
    (hn : n ≤ bytes.length) (h : AfterBlocks dest bytes n k w) (hk : k ≤ blockCount n)
    (hfuel : n - blockStart n k + 1 < fuel) :
    wp answers (receiveContents dest n fuel (blockStart n k))
      (fun _ w ↦ AfterBlocks dest bytes n (blockCount n) w) w := by
  induction fuel generalizing k w with
  | zero => omega
  | succ fuel ih =>
    have hbuffer : bufferSize = 1024 := rfl
    rw [receiveContents]
    split
    · next hlt =>
      have hlt : blockStart n k < n := by exact_mod_cast hlt
      have hsize : (if ((n : Int) - blockStart n k).toNat < bufferSize
          then ((n : Int) - blockStart n k).toNat else bufferSize) =
          min (n - blockStart n k) bufferSize := by
        split <;> omega
      have hnext := blockStart_succ hlt
      have hin : blockStart n (k + 1) ≤ n := Nat.min_le_right _ _
      generalize hr : min (n - blockStart n k) bufferSize = toReceive at hsize hnext
      dsimp only
      rw [hsize, wp_bind]
      have hstream : (bytes.drop (blockStart n k)).take toReceive <+: w.stream :=
        h.stream ▸ List.take_prefix _ _
      have hblock : ((bytes.drop (blockStart n k)).take toReceive).length = toReceive := by
        rw [List.length_take, List.length_drop]
        omega
      refine wp_receiveChunk hblock (by omega) (Nat.zero_le _) (by omega) h.announced hstream rfl
        ⟨w.requested, Nat.le_max_left _ _, rfl⟩ (fun buffer r hbytes hmax ↦ ?_)
      have hreq := h.requested
      rw [h.taken] at hmax
      have hend : r ≤ blockStart n (k + 1) := by omega
      dsimp only
      rw [hbytes]
      refine wp_call_bind_of_eq (fun ok w' ↦ and_iff_right h.opened) ?_
      refine wp_call_bind_of_eq (fun _ w' ↦ (and_iff_right (Subsingleton.elim _ ())).symm) ?_
      rw [← hnext]
      refine ih ⟨h.announced, ?_, ?_, ?_, h.opened, ?_, ?_⟩ (blockStart_lt_iff.mp hlt) (by omega)
      · rw [h.stream, List.drop_drop, hnext]
      · rw [h.taken, hnext]
      · exact hend
      · rw [h.file, hnext, List.take_add]
      · rw [h.acks, h.taken, h.file, acksAfter_succ, hnext, ← List.take_add, List.length_take,
          Nat.min_eq_left (by omega)]
    · next hge =>
      have hdone : ¬ k < blockCount n := fun hlt ↦ hge (by exact_mod_cast blockStart_lt_iff.mpr hlt)
      obtain rfl : k = blockCount n := by omega
      exact h

theorem blockStart_blockCount (n : Nat) : blockStart n (blockCount n) = n := by
  have hlast := (blockStart_lt_iff (n := n) (k := blockCount n)).not.mpr (Nat.lt_irrefl _)
  have hle : blockStart n (blockCount n) ≤ n := Nat.min_le_right _ _
  omega

/-- What a receive of `n` bytes leaves of the connection. -/
structure TookShare (dest stream : Text) (n : Nat) (w : Connection) : Prop where
  opened : w.opened = some dest
  /-- The file holds the next `n` bytes in their order. -/
  file : w.file = stream.take n
  stream : w.stream = stream.drop n
  taken : w.taken = n
  /-- No request went beyond these bytes. -/
  requested : w.requested ≤ n
  /-- One acknowledgement for the size, and one behind every block of `BUFFER_SIZE` bytes and
  behind the last one, each when the block was received and written. -/
  acks : w.acks = (List.range (1 + (n + (bufferSize - 1)) / bufferSize)).map
    (fun k ↦ (min (k * bufferSize) n, min (k * bufferSize) n))

theorem wp_receiveAndSaveFile (dest : Text) {msg stream : Text} {n fuel : Nat} (hmsg : msg ≠ [])
    (hfit : msg.length < bufferSize) (hsize : atol (cstr msg) = n) (hstream : n ≤ stream.length)
    (hfuel : n + 1 < fuel) :
    wp answers (receiveAndSaveFile fuel dest) (fun _ w ↦ AfterBlocks dest stream n (blockCount n) w)
      ⟨some msg, stream, 0, 0, none, [], []⟩ := by
  have hbuffer : bufferSize = 1024 := rfl
  have hle : msg.length ≤ bufferSize - 1 := by omega
  refine wp_call_bind_of_eq (fun bytes w' ↦ and_iff_right hle) ?_
  rw [if_neg hmsg, ofOption_poke_bind _ hfit (fun text ↦ do
    recvCall .sendAck
    if ← recvCall (.fopen dest (atol text)) then receiveContents dest (atol text) fuel 0), hsize]
  refine wp_call_bind_of_eq (fun _ w' ↦ (and_iff_right (Subsingleton.elim _ ())).symm) ?_
  refine wp_call_bind_of_eq (fun ok w' ↦ Iff.rfl) ?_
  have hzero : blockStart n 0 = 0 := by rw [blockStart, Nat.zero_mul, Nat.zero_min]
  have hafter : AfterBlocks dest stream n 0 ⟨none, stream, 0, 0, some dest, [], [(0, 0)]⟩ := by
    refine ⟨rfl, ?_, hzero.symm, Nat.zero_le _, rfl, ?_, ?_⟩
    · rw [hzero, List.drop_zero]
    · rw [hzero, List.take_zero]
    · rw [acksAfter, List.range_one, List.map_singleton, hzero]
  have hrun := wp_receiveContents hstream hafter (Nat.zero_le _) (by omega : _ < fuel)
  rw [hzero] at hrun
  exact hrun

/-- For every announced size and every way the stream behind it comes in, a receive ends, has
taken the announced bytes and no others, and has sent the acknowledgements that the sender of
them waits for. -/
theorem receive_takes_its_share (dest msg stream : Text) (n fuel : Nat) (hmsg : msg ≠ [])
    (hfit : msg.length < bufferSize) (hsize : atol (cstr msg) = n) (hstream : n ≤ stream.length)
    (hfuel : n + 1 < fuel) :
    Ends (Answered answers) (fun s ↦ s.1 = .ret () ∧ TookShare dest stream n s.2)
      (receiveAndSaveFile fuel dest, ⟨some msg, stream, 0, 0, none, [], []⟩) := by
  have hends := ends_of_wp (wp_receiveAndSaveFile dest hmsg hfit hsize hstream hfuel)
  refine hends.imp ?_
  rintro ⟨p, w⟩ ⟨_, hret, hafter⟩
  have hn := blockStart_blockCount n
  refine ⟨hret, hafter.opened, ?_, ?_, ?_, ?_, hafter.acks⟩
  · rw [hafter.file, hn]
  · rw [hafter.stream, hn]
  · rw [hafter.taken, hn]
  · exact hn ▸ hafter.requested

/-- Three blocks are announced, the last one shorter; what follows them stays for the next receive. -/
theorem receive_takes_its_share_of_blocks :
    Ends (Answered answers)
      (fun s ↦ s.1 = .ret () ∧ s.2.file = List.replicate 3000 97 ∧ s.2.stream = lit "next" ∧
        s.2.acks = [(0, 0), (1024, 1024), (2048, 2048), (3000, 3000)])
      (receiveAndSaveFile 3002 (lit "./s/a"),
        ⟨some (lit "3000\n"), List.replicate 3000 97 ++ lit "next", 0, 0, none, [], []⟩) := by
  have hstream : 3000 ≤ (List.replicate 3000 97 ++ lit "next").length := by
    rw [List.length_append, List.length_replicate]
    exact Nat.le_add_right _ _
  have hends := receive_takes_its_share (lit "./s/a") (lit "3000\n") _ 3000 3002 (by decide)
    (by decide) (by decide) hstream (by decide)
  refine hends.imp ?_
  rintro ⟨p, w⟩ ⟨hret, hshare⟩
  refine ⟨hret, ?_, ?_, hshare.acks⟩
  · rw [hshare.file, List.take_left' List.length_replicate]
  · rw [hshare.stream, List.drop_left' List.length_replicate]

end NetworkFileSystem.Transfer.Intake
