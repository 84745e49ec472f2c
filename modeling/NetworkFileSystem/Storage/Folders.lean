import NetworkFileSystem.Base.CharArray
import NetworkFileSystem.Base.Prog
import NetworkFileSystem.Protocol.Message

/-!
# Listing a folder

`helper.c:212–273`. The lines of the entries are printed behind each other into an array of
`BUFFER_SIZE` bytes; a line that does not fit is printed again at the start, once the array is
sent.
-/

namespace NetworkFileSystem.Storage

open Base Protocol Prog

/-- `d_type`, as far as it is looked at. -/
inductive EntryType where
  | folder
  | regular
  | other
  deriving DecidableEq

/-- What `readdir` returns. -/
structure Dirent where
  type : EntryType
  name : Text
  deriving DecidableEq

/-- A name that a folder can hold. -/
structure Dirent.Valid (e : Dirent) : Prop where
  ne_nil : e.name ≠ []
  short : e.name.length ≤ 255
  noNul : 0 ∉ e.name

/-- `color_code`, `helper.c:244–249`. -/
def colorCode : EntryType → Text
  | .folder => 27 :: lit "[34m"
  | .regular => 27 :: lit "[0m"
  | .other => 27 :: lit "[0m"

/-- The line of an entry: `"%s%s\033[0m\n"`. -/
def entryLine (e : Dirent) : Text := colorCode e.type ++ e.name ++ (27 :: lit "[0m\n")

/-- What the listing of a folder asks for. -/
inductive ListOp where
  /-- `opendir` with all results of `readdir`. -/
  | opendir (path : Text)
  /-- What the local array holds at first. -/
  | stack
  | send (bytes : Text)
  deriving DecidableEq

/-- The answers. -/
@[reducible] def ListOp.Res : ListOp → Type
  | .opendir _ => Option (List Dirent)
  | .stack => CharArray bufferSize
  | .send _ => Bool

/-- Programs that list. -/
abbrev ListProg (α : Type) : Type := Prog ListOp ListOp.Res α

/-- A call with its answer. -/
abbrev ListEvent : Type := Event ListOp ListOp.Res

/-- A call of the listing. -/
def listCall (o : ListOp) : ListProg o.Res := Prog.call o

/-- `send_good(sock, t, strlen(t))`, at the end of a failed listing. -/
def sendError (t : Text) : ListProg Int := do
  let _ ← listCall (.send t)
  pure (-1)

/-- The loop at `helper.c:243–262` and what follows it. -/
def listEntries : List Dirent → CharArray bufferSize → Nat → ListProg Int
  | [], buffer, offset => do
    if 0 < offset then
      if ← listCall (.send (buffer.bytes.take offset)) then pure 0 else pure (-1)
    else pure 0
  | e :: rest, buffer, offset => do
    let buffer := buffer.snprintf offset (bufferSize - offset) (entryLine e)
    if bufferSize - offset ≤ (entryLine e).length then
      if ← listCall (.send (buffer.bytes.take offset)) then
        listEntries rest (buffer.snprintf 0 bufferSize (entryLine e)) (entryLine e).length
      else pure (-1)
    else listEntries rest buffer (offset + (entryLine e).length)

/-- `helper.c:212–273`; `path` is `args[1]`. -/
def listFile (path : Option Text) : ListProg Int := do
  match path with
  | none => sendError (lit "Invalid Command Format")
  | some path =>
    match ← listCall (.opendir path) with
    | none => sendError (clip bufferSize (lit "Could not list folder @ " ++ path ++ lit "\n"))
    | some entries =>
      let buffer ← listCall .stack
      listEntries entries buffer 0

/-! ### What is sent -/

/-- The blocks that a run sends. -/
def sentBlocks (tr : List ListEvent) : List Text :=
  tr.filterMap (fun e ↦ match e.1 with
    | .send bytes => some bytes
    | _ => none)

/-- No call to `send` fails. -/
def AllSent (tr : List ListEvent) : Prop := ∀ bytes, (⟨.send bytes, false⟩ : ListEvent) ∉ tr

/-- A block of a listing. -/
def IsBlock (block : Text) : Prop := block ≠ [] ∧ block.length ≤ bufferSize - 1

theorem length_entryLine_le {e : Dirent} (h : e.Valid) : (entryLine e).length ≤ 265 := by
  have hname := h.short
  cases htype : e.type <;> simp [entryLine, colorCode, htype, lit] <;> omega

theorem length_entryLine_pos (e : Dirent) : 0 < (entryLine e).length := by
  simp only [entryLine, lit, List.length_append]
  simp

/-- What the array holds up to `offset` and the lines to come are sent. The induction is on the
entries; a line that does not fit finds at least one byte to send before it. -/
theorem exec_listEntries {entries : List Dirent} {buffer : CharArray bufferSize} {offset : Nat}
    {tr : List ListEvent} {out : Option Int} (hvalid : ∀ e ∈ entries, e.Valid)
    (hoffset : offset < bufferSize) (hx : Exec (listEntries entries buffer offset) tr out)
    (hsent : AllSent tr) :
    out = some 0 ∧
      (sentBlocks tr).flatten = buffer.bytes.take offset ++ (entries.map entryLine).flatten ∧
      ∀ block ∈ sentBlocks tr, IsBlock block := by
  induction entries generalizing buffer offset tr with
  | nil =>
    unfold listEntries at hx
    split at hx
    · next hpos =>
      obtain ⟨ok, rest, rfl, hrest⟩ := exec_call_bind.mp hx
      have hlength : (buffer.bytes.take offset).length = offset := by
        rw [List.length_take, buffer.length_bytes]
        omega
      cases ok with
      | false => exact absurd List.mem_cons_self (hsent _)
      | true =>
        obtain ⟨rfl, rfl⟩ := hrest
        refine ⟨rfl, by simp [sentBlocks], ?_⟩
        intro block hblock
        have heq : block = buffer.bytes.take offset := by simpa [sentBlocks] using hblock
        rw [heq]
        refine ⟨List.ne_nil_of_length_pos (by omega), by omega⟩
    · obtain ⟨rfl, rfl⟩ := hx
      have hzero : offset = 0 := by omega
      simp [sentBlocks, hzero]
  | cons e entries ih =>
    have he := hvalid e List.mem_cons_self
    have hshort := length_entryLine_le he
    have hpos := length_entryLine_pos e
    have hbuffer : bufferSize = 1024 := rfl
    have hrest : ∀ x ∈ entries, x.Valid := fun x hx ↦ hvalid x (List.mem_cons_of_mem _ hx)
    unfold listEntries at hx
    split at hx
    · next hfull =>
      obtain ⟨ok, rest, rfl, hx₁⟩ := exec_call_bind.mp hx
      have hblock : (buffer.snprintf offset (bufferSize - offset) (entryLine e)).bytes.take offset =
          buffer.bytes.take offset := CharArray.take_snprintf_of_le (by omega) (le_refl _)
      have hlength : (buffer.bytes.take offset).length = offset := by
        rw [List.length_take, buffer.length_bytes]
        omega
      cases ok with
      | false => exact absurd List.mem_cons_self (hsent _)
      | true =>
        have hagain : ∀ a : CharArray bufferSize,
            (a.snprintf 0 bufferSize (entryLine e)).bytes.take (entryLine e).length =
              entryLine e := by
          intro a
          have hprint := CharArray.take_snprintf (a := a) (i := 0) (t := entryLine e) (by omega)
          simpa using hprint
        have hlater := ih hrest (by omega) hx₁
          (fun bytes hmem ↦ hsent bytes (List.mem_cons_of_mem _ hmem))
        refine ⟨hlater.1, ?_, ?_⟩
        · have hcons : (sentBlocks (⟨.send (buffer.bytes.take offset), true⟩ :: rest)).flatten =
              buffer.bytes.take offset ++ (sentBlocks rest).flatten := by simp [sentBlocks]
          rw [hblock, hcons, hlater.2.1, hagain]
          simp
        · intro block hmem
          rw [hblock] at hmem
          have hcases : block = buffer.bytes.take offset ∨ block ∈ sentBlocks rest := by
            simpa [sentBlocks] using hmem
          rcases hcases with rfl | hmem
          · refine ⟨List.ne_nil_of_length_pos (by omega), by omega⟩
          · exact hlater.2.2 block hmem
    · next hroom =>
      have hprint := CharArray.take_snprintf (a := buffer) (i := offset) (t := entryLine e)
        (by omega)
      have hlater := ih hrest (by omega) hx hsent
      refine ⟨hlater.1, ?_, hlater.2.2⟩
      rw [hlater.2.1, hprint]
      simp

/-- A listing sends the lines of all entries in the order of `readdir`, in blocks that are neither
empty nor longer than 1023 bytes. -/
theorem listFile_sends_entries {path : Text} {entries : List Dirent} {tr : List ListEvent}
    {out : Option Int} (hvalid : ∀ e ∈ entries, e.Valid)
    (hx : Exec (listFile (some path)) (⟨.opendir path, some entries⟩ :: tr) out)
    (hsent : AllSent tr) :
    out = some 0 ∧ (sentBlocks tr).flatten = (entries.map entryLine).flatten ∧
      ∀ block ∈ sentBlocks tr, IsBlock block := by
  unfold listFile at hx
  obtain ⟨listed, t₁, heq, hx₁⟩ := exec_call_bind.mp hx
  cases heq
  obtain ⟨buffer, t₂, rfl, hx₂⟩ := exec_call_bind.mp hx₁
  have hrest := exec_listEntries hvalid (by decide) hx₂
    (fun bytes hmem ↦ hsent bytes (List.mem_cons_of_mem _ hmem))
  simpa [sentBlocks] using hrest

/-- A file whose name is as long as a name can be. -/
def longFile (b : UInt8) : Dirent := ⟨.regular, List.replicate 255 b⟩

private theorem valid_longFile {b : UInt8} (hb : b ≠ 0) : (longFile b).Valid where
  ne_nil := List.ne_nil_of_length_pos (List.length_replicate ▸ Nat.succ_pos 254)
  short := List.length_replicate.le
  noNul := fun hmem ↦ hb (List.eq_of_mem_replicate hmem).symm

private theorem length_entryLine_longFile (b : UInt8) : (entryLine (longFile b)).length = 264 := by
  have hname : (longFile b).name.length = 255 := List.length_replicate
  rw [entryLine, List.length_append, List.length_append, hname]
  rfl

/-- A folder and four files with such names. -/
def sampleEntries : List Dirent := ⟨.folder, lit "d"⟩ :: [97, 98, 99, 100].map longFile

/-- They are listed on a connection that takes everything. -/
def sampleAnswer : (o : ListOp) → o.Res
  | .opendir _ => some sampleEntries
  | .stack => CharArray.zeros bufferSize
  | .send _ => true

private theorem valid_sampleEntries : ∀ e ∈ sampleEntries, e.Valid := by
  intro e he
  obtain rfl | he := List.mem_cons.mp he
  · exact ⟨by decide, by decide, by decide⟩
  · obtain ⟨b, hb, rfl⟩ := List.mem_map.mp he
    exact valid_longFile ((by decide +kernel : ∀ b ∈ ([97, 98, 99, 100] : Text), b ≠ 0) b hb)

/-- The line of the last file does not fit behind the others, so a second block is sent. -/
theorem listFile_sends_two_blocks :
    ∃ tr, Exec (listFile (some (lit "./s"))) (⟨.opendir (lit "./s"), some sampleEntries⟩ :: tr)
        (some 0) ∧
      2 ≤ (sentBlocks tr).length ∧ (sentBlocks tr).flatten = (sampleEntries.map entryLine).flatten ∧
      ∀ block ∈ sentBlocks tr, IsBlock block := by
  have hrun := exec_runWith sampleAnswer (listFile (some (lit "./s")))
  obtain ⟨r, tr, htr, -⟩ := exec_call_bind.mp hrun
  have hopened := answer_of_mem_runWith (htr ▸ List.mem_cons_self)
  obtain rfl : r = some sampleEntries := eq_of_heq (Sigma.mk.inj hopened).2
  have hsent : AllSent tr := by
    intro bytes hmem
    have hevent := answer_of_mem_runWith (htr ▸ List.mem_cons_of_mem _ hmem)
    cases hevent
  rw [htr] at hrun
  obtain ⟨hout, hflatten, hsizes⟩ := listFile_sends_entries valid_sampleEntries hrun hsent
  rw [hout] at hrun
  refine ⟨tr, hrun, ?_, hflatten, hsizes⟩
  -- One block has room for fewer bytes than the four long lines have.
  have hlong : (sentBlocks tr).flatten.length = (entryLine ⟨.folder, lit "d"⟩).length + 4 * 264 := by
    rw [hflatten]
    simp only [sampleEntries, List.map_cons, List.map_nil, List.flatten_cons, List.flatten_nil,
      List.length_append, length_entryLine_longFile, List.length_nil]
  by_contra hfew
  obtain hnil | ⟨block, hone⟩ : sentBlocks tr = [] ∨ ∃ block, sentBlocks tr = [block] := by
    rw [← List.length_eq_zero_iff, ← List.length_eq_one_iff]
    omega
  · rw [hnil, List.flatten_nil, List.length_nil] at hlong
    omega
  · have hsize := (hsizes block (hone ▸ List.mem_singleton_self block)).2
    have hbuffer : bufferSize = 1024 := rfl
    rw [hone, List.flatten_singleton] at hlong
    omega

end NetworkFileSystem.Storage
