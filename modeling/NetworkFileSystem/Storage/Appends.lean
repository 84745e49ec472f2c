import NetworkFileSystem.Storage.Requests

/-!
# What a write appends

`storage_server.c:56–74,112–136`, `helper.h:10`. The synchronous write prints its data at
once. The asynchronous one fills an array of 33 bytes and prints it as a string whenever 32
bytes are in it and once more at the end; it clears the array behind a full chunk only, so
the end of the first string is whatever the array held before.
-/

namespace NetworkFileSystem.Storage

open Base Protocol Lock Prog

/-- What the calls of a request print to its file, in order. -/
def printedText (tr : List SsEvent) : Text :=
  tr.flatMap (fun e ↦ match e.1 with
    | .fprintf text => text
    | _ => [])

/-- The request has opened its file. -/
def OpensFile (tr : List SsEvent) : Prop := ∃ path, (⟨.fopen path, true⟩ : SsEvent) ∈ tr

/-! ### The chunk loop -/

private theorem arrayText_append {pre rest : Text} (hpre : 0 ∉ pre) (hrest : rest ≠ []) :
    arrayText (pre ++ rest) = some pre ↔ rest.head? = some 0 := by
  obtain ⟨b, rest, rfl⟩ := List.exists_cons_of_ne_nil hrest
  have hcstr : cstr (pre ++ b :: rest) = pre ++ cstr (b :: rest) := by
    apply List.takeWhile_append_of_pos
    intro x hx
    simp only [decide_eq_true_eq]
    rintro rfl
    exact hpre hx
  have hempty : pre ++ cstr (b :: rest) = pre ↔ b = 0 := by
    by_cases hb : b = 0 <;> simp [cstr, hb]
  simp only [List.head?_cons, Option.some.injEq]
  rw [← hempty, ← hcstr, arrayText]
  by_cases hmem : 0 ∈ pre ++ b :: rest
  · simp [hmem]
  · have hb : b ≠ 0 := by
      rintro rfl
      simp at hmem
    simp [hmem, hcstr, hempty, hb]

/-- The loop prints what the array starts with and the data exactly if the byte behind the first
string is a NUL. The induction is on the data; behind a full chunk the array is cleared. -/
theorem flatten_asyncBlocks {pre rest data : Text}
    (hlen : (pre ++ rest).length = asyncBuffLen + 1) (hoff : pre.length < asyncBuffLen)
    (hpre : 0 ∉ pre) (hdata : 0 ∉ data) :
    (∃ blocks, asyncBlocks (pre ++ rest) pre.length data = some blocks ∧
        blocks.flatten = pre ++ data ++ lit "\n") ↔
      (pre ++ rest)[min (pre.length + data.length) asyncBuffLen]? = some 0 := by
  have hbuff : asyncBuffLen = 32 := rfl
  induction data generalizing pre rest with
  | nil =>
    have hrest : rest ≠ [] := by
      rintro rfl
      simp at hlen
      omega
    have hindex : (pre ++ rest)[min (pre.length + ([] : Text).length) asyncBuffLen]? =
        rest.head? := by
      rw [List.length_nil, Nat.add_zero, Nat.min_eq_left hoff.le,
        List.getElem?_append_right (le_refl _), Nat.sub_self, List.head?_eq_getElem?]
    rw [hindex, ← arrayText_append hpre hrest]
    cases htext : arrayText (pre ++ rest) with
    | none => simp [asyncBlocks, htext]
    | some text => simp [asyncBlocks, htext]
  | cons b data ih =>
    obtain ⟨r, rest, rfl⟩ : ∃ r rest', rest = r :: rest' := by
      apply List.exists_cons_of_ne_nil
      rintro rfl
      simp at hlen
      omega
    have hb : (0 : UInt8) ≠ b := fun h ↦ hdata (by simp [h])
    have hdata' : 0 ∉ data := fun h ↦ hdata (List.mem_cons_of_mem _ h)
    have hset : (pre ++ r :: rest).set pre.length b = (pre ++ [b]) ++ rest := by
      rw [List.set_append_right _ _ (le_refl _), Nat.sub_self]
      simp
    have hpre' : 0 ∉ pre ++ [b] := by simp [hpre, hb]
    have hcount : (pre ++ [b]).length = pre.length + 1 := by simp
    have hlen' : ((pre ++ [b]) ++ rest).length = asyncBuffLen + 1 := by
      simp only [List.length_append, List.length_cons, List.length_nil] at hlen ⊢
      omega
    have hindex : (pre ++ r :: rest)[min (pre.length + (b :: data).length) asyncBuffLen]? =
        ((pre ++ [b]) ++ rest)[min ((pre ++ [b]).length + data.length) asyncBuffLen]? := by
      rw [← hset, List.getElem?_set_ne]
      · rw [hcount, List.length_cons]
        congr 2
        omega
      · rw [hcount]
        omega
    rw [hindex, asyncBlocks, hset]
    split
    · next hfull =>
      -- The chunk is full: the array has one byte left, which ends the string or does not.
      have hone : ((pre ++ [b]) ++ rest)[min ((pre ++ [b]).length + data.length) asyncBuffLen]? =
          rest.head? := by
        rw [Nat.min_eq_right (by omega), ← hfull, ← hcount,
          List.getElem?_append_right (le_refl _), Nat.sub_self, List.head?_eq_getElem?]
      have hrest : rest ≠ [] := by
        rintro rfl
        simp at hlen'
        omega
      have hzeros : (List.replicate (asyncBuffLen + 1) (0 : UInt8))[
          min (([] : Text).length + data.length) asyncBuffLen]? = some 0 := by
        rw [List.getElem?_replicate_of_lt (by omega)]
      have hcleared : ([] ++ List.replicate (asyncBuffLen + 1) (0 : UInt8)).length =
          asyncBuffLen + 1 := by simp
      obtain ⟨blocks, hblocks, hflat⟩ := (ih hcleared (by simp [hbuff]) (by simp) hdata').mpr hzeros
      have hloop : asyncBlocks (List.replicate (asyncBuffLen + 1) 0) 0 data = some blocks := hblocks
      have hwhole : pre ++ b :: data ++ lit "\n" = (pre ++ [b]) ++ blocks.flatten := by
        simp [hflat]
      rw [hone, ← arrayText_append hpre' hrest, hwhole]
      cases htext : arrayText ((pre ++ [b]) ++ rest) with
      | none => simp
      | some text =>
        have hcancel : text ++ blocks.flatten = (pre ++ [b]) ++ blocks.flatten ↔
            text = pre ++ [b] := List.append_left_inj _
        rw [Option.some.injEq, ← hcancel]
        simp [hloop]
    · next hnot =>
      apply Iff.trans _ (ih hlen' (by omega) hpre' hdata')
      rw [hcount]
      simp

/-! ### Runs -/

section Runs

variable {command data array : Text} {tr : List SsEvent}

private theorem printedText_cons (e : SsEvent) (tr : List SsEvent) :
    printedText (e :: tr) = printedText [e] ++ printedText tr := by
  simp [printedText]

private theorem printedText_append (tr tr' : List SsEvent) :
    printedText (tr ++ tr') = printedText tr ++ printedText tr' := by
  simp [printedText]

/-- Operations other than `fprintf` print nothing. -/
private theorem printedText_of_only {tr : List SsEvent}
    (h : ∀ e ∈ tr, ∀ text, e.1 ≠ .fprintf text) : printedText tr = [] := by
  rw [printedText, List.flatMap_eq_nil_iff]
  intro e he
  split
  · next text heq => exact absurd heq (h e he text)
  · rfl

private theorem exec_printBlocks {blocks : List Text} {out : Option Unit}
    (h : Exec (printBlocks blocks) tr out) : printedText tr = blocks.flatten := by
  induction blocks generalizing tr with
  | nil =>
    rw [h.1]
    rfl
  | cons block blocks ih =>
    obtain ⟨_, rest, rfl, hrest⟩ := h
    rw [printedText_cons, ih hrest]
    simp [printedText]

private theorem only_printBlocks (blocks : List Text) :
    Only (fun o ↦ o ≠ SsOp.stack) (printBlocks blocks) := by
  induction blocks with
  | nil => trivial
  | cons block blocks ih => exact ⟨by simp, fun _ ↦ ih⟩

private theorem exec_lockIndex {path : Text} {out : Option Nat} (h : Exec (lockIndex path) tr out) :
    ∀ e ∈ tr, (∃ p, e.1 = .lookup p) ∨ ∃ p, e.1 = .create p := by
  obtain ⟨r, rest, rfl, hrest⟩ := h
  cases r with
  | some i =>
    obtain ⟨rfl, -⟩ := hrest
    simp
  | none =>
    obtain ⟨_, rest', rfl, rfl, -⟩ := hrest
    simp

/-- The lock of a path is taken without printing and without opening a file. -/
private theorem plain_lockIndex {path : Text} {out : Option Nat}
    (h : Exec (lockIndex path) tr out) : printedText tr = [] ∧ ¬ OpensFile tr := by
  have hops := exec_lockIndex h
  constructor
  · apply printedText_of_only
    intro e he text heq
    rcases hops e he with ⟨_, h'⟩ | ⟨_, h'⟩ <;> rw [heq] at h' <;> cases h'
  · rintro ⟨p, hmem⟩
    rcases hops _ hmem with ⟨_, h'⟩ | ⟨_, h'⟩ <;> cases h'

private theorem stack_notMem_lockIndex {path : Text} {out : Option Nat}
    (h : Exec (lockIndex path) tr out) (array : Text) : (⟨.stack, array⟩ : SsEvent) ∉ tr := by
  intro hmem
  rcases exec_lockIndex h _ hmem with ⟨_, h'⟩ | ⟨_, h'⟩ <;> cases h'

theorem opensFile_append {tr tr' : List SsEvent} :
    OpensFile (tr ++ tr') ↔ OpensFile tr ∨ OpensFile tr' := by
  simp [OpensFile, exists_or]

/-- A synchronous write that opens its file prints the data and a newline. -/
theorem printedText_writeFile {out : Option Text} (hdata : (tokens bar command)[2]? = some data)
    (hx : Exec (writeFile command) tr out) (hopen : OpensFile tr) :
    printedText tr = data ++ lit "\n" := by
  unfold writeFile at hx
  simp only [hdata] at hx
  rcases exec_ofOption_bind.mp hx with ⟨-, rfl, -⟩ | ⟨path, -, hx₁⟩
  · obtain ⟨_, hmem⟩ := hopen
    cases hmem
  rcases exec_bind.mp hx₁ with ⟨hlock, -⟩ | ⟨i, t₁, t₂, rfl, hlock, hx₂⟩
  · exact absurd hopen (plain_lockIndex hlock).2
  obtain ⟨_, _, rfl, ok, t₄, rfl, hx₃⟩ := hx₂
  rw [printedText_append, (plain_lockIndex hlock).1]
  cases ok with
  | true =>
    obtain ⟨_, _, rfl, _, _, rfl, _, _, rfl, rfl, -⟩ := hx₃
    simp [printedText]
  | false =>
    obtain ⟨rfl, -⟩ := hx₃
    rcases opensFile_append.mp hopen with h | ⟨p, hmem⟩
    · exact absurd h (plain_lockIndex hlock).2
    · simp at hmem

/-- What follows in an asynchronous write once the array is read: only the blocks are printed. -/
private theorem exec_behindStack {path ip port : Text} {i : Nat} {blocks : Option (List Text)}
    {out : Option Unit} (hx : Exec (do
      let blocks ← (ofOption blocks : SsProg (List Text))
      printBlocks blocks
      let _ ← perform (.release .write i)
      sendAckToNm (asyncNotice path ip port)
      let _ ← perform .fclose
      pure ()) tr out) :
    printedText tr = (blocks.getD []).flatten ∧ ∀ e ∈ tr, e.1 ≠ .stack := by
  rcases exec_ofOption_bind.mp hx with ⟨rfl, rfl, -⟩ | ⟨blocks, rfl, hx₁⟩
  · exact ⟨rfl, by simp⟩
  rcases exec_bind.mp hx₁ with ⟨hprint, -⟩ | ⟨_, t₁, t₂, rfl, hprint, hx₂⟩
  · exact ⟨exec_printBlocks hprint, (only_printBlocks blocks).exec hprint⟩
  have hrest : printedText t₂ = [] ∧ ∀ e ∈ t₂, e.1 ≠ .stack := by
    obtain ⟨_, _, rfl, told, _, rfl, hx₃⟩ := hx₂
    cases told with
    | true =>
      obtain ⟨_, _, rfl, rfl, -⟩ := hx₃
      simp [printedText]
    | false =>
      obtain ⟨rfl, -⟩ := hx₃
      simp [printedText]
  refine ⟨?_, fun e he ↦ ?_⟩
  · rw [printedText_append, exec_printBlocks hprint, hrest.1, List.append_nil]
    rfl
  · rcases List.mem_append.mp he with he | he
    · exact (only_printBlocks blocks).exec hprint e he
    · exact hrest.2 e he

/-- An asynchronous write that has read its array prints the blocks, or stops at the array. -/
theorem printedText_writeFileAsync {out : Option Unit}
    (hdata : (tokens bar command)[4]? = some data) (hx : Exec (writeFileAsync command) tr out)
    (hstack : (⟨.stack, array⟩ : SsEvent) ∈ tr) :
    printedText tr = ((asyncBlocks array 0 data).getD []).flatten := by
  have hother : ∀ {e : SsEvent}, e.1 ≠ .stack → (⟨.stack, array⟩ : SsEvent) ≠ e := by
    rintro e he rfl
    exact he rfl
  unfold writeFileAsync at hx
  simp only [hdata] at hx
  obtain ⟨_, t₀, rfl, hx₀⟩ := hx
  rw [List.mem_cons, or_iff_right (hother (by simp))] at hstack
  rcases exec_ofOption_bind.mp hx₀ with ⟨-, rfl, -⟩ | ⟨path, -, hx₁⟩
  · cases hstack
  rcases exec_bind.mp hx₁ with ⟨hlock, -⟩ | ⟨i, t₁, t₂, rfl, hlock, hx₂⟩
  · exact absurd hstack (stack_notMem_lockIndex hlock array)
  rw [List.mem_append, or_iff_right (stack_notMem_lockIndex hlock array)] at hstack
  obtain ⟨_, _, rfl, ok, t₄, rfl, hx₃⟩ := hx₂
  rw [List.mem_cons, or_iff_right (hother (by simp)), List.mem_cons,
    or_iff_right (hother (by simp))] at hstack
  cases ok with
  | false =>
    obtain ⟨_, _, rfl, rfl, -⟩ := hx₃
    simp at hstack
  | true =>
    rcases exec_ofOption_bind.mp hx₃ with ⟨-, rfl, -⟩ | ⟨ip, -, hx₄⟩
    · cases hstack
    rcases exec_ofOption_bind.mp hx₄ with ⟨-, rfl, -⟩ | ⟨port, -, hx₅⟩
    · cases hstack
    obtain ⟨array', t₅, rfl, hx₆⟩ := hx₅
    have hrest := exec_behindStack hx₆
    have harray : array = array' := by
      rcases List.mem_cons.mp hstack with heq | hmem
      · cases heq
        rfl
      · exact absurd rfl (hrest.2 _ hmem)
    subst harray
    rw [← hrest.1, printedText_cons, printedText_append, (plain_lockIndex hlock).1]
    rfl

/-- The synchronous write appends its data and a newline. The asynchronous write appends the same
exactly if its array held a NUL behind the first string: at the length of the data, or behind 32
bytes of longer data. -/
theorem async_appends_as_sync_iff {buffer : Text} {tr' : List SsEvent} {out : Option Text}
    {out' : Option Unit} (hsync : (tokens bar command)[2]? = some data)
    (hasync : (tokens bar buffer)[4]? = some data) (hnul : 0 ∉ data)
    (harray : array.length = asyncBuffLen + 1) (hx : Exec (writeFile command) tr out)
    (hopen : OpensFile tr) (hx' : Exec (writeFileAsync buffer) tr' out')
    (hstack : (⟨.stack, array⟩ : SsEvent) ∈ tr') :
    printedText tr = data ++ lit "\n" ∧ (printedText tr' = printedText tr ↔
      array[min data.length asyncBuffLen]? = some 0) := by
  have htext := printedText_writeFile hsync hx hopen
  have hstart : ([] ++ array).length = asyncBuffLen + 1 := harray
  have hblocks := flatten_asyncBlocks hstart (by decide) (by simp) hnul
  rw [List.nil_append, List.length_nil, Nat.zero_add] at hblocks
  refine ⟨htext, ?_⟩
  rw [htext, printedText_writeFileAsync hasync hx' hstack, ← hblocks]
  cases asyncBlocks array 0 data with
  | none => simp [lit]
  | some blocks => simp

/-- The calls of a synchronous write. -/
def syncTrace (text : Text) : List SsEvent :=
  [⟨.lookup (lit "./s/f"), some 0⟩, ⟨.acquire .write 0, ()⟩, ⟨.fopen (lit "./s/f"), true⟩,
    ⟨.fprintf text, ()⟩, ⟨.release .write 0, ()⟩, ⟨.fclose, ()⟩]

/-- The calls of an asynchronous write that finds `array` on the stack. -/
def asyncTrace (array : Text) (texts : List Text) : List SsEvent :=
  [⟨.send (lit "Write Request Recieved"), true⟩, ⟨.lookup (lit "./s/f"), some 0⟩,
    ⟨.acquire .write 0, ()⟩, ⟨.fopen (lit "./s/f"), true⟩, ⟨.stack, array⟩] ++
    texts.map (fun text ↦ ⟨.fprintf text, ()⟩) ++ [⟨.release .write 0, ()⟩,
    ⟨.notify (lit "writeasync ./s/f 10.0.0.9 5000\n"), true⟩, ⟨.fclose, ()⟩]

private theorem opensFile_syncTrace (text : Text) : OpensFile (syncTrace text) :=
  ⟨lit "./s/f", by simp [syncTrace]⟩

private theorem stack_mem_asyncTrace (array : Text) (texts : List Text) :
    (⟨.stack, array⟩ : SsEvent) ∈ asyncTrace array texts := by
  simp [asyncTrace]

/-- Thirty-six bytes are written in both ways. The asynchronous write prints them in two blocks;
its array held other text before, but a NUL behind 32 bytes. -/
theorem async_appends_as_sync_two_blocks :
    printedText (asyncTrace (List.replicate 32 120 ++ [0])
        [lit "abcdefghijklmnopqrstuvwxyz012345", lit "6789\n"]) =
      printedText (syncTrace (lit "abcdefghijklmnopqrstuvwxyz0123456789\n")) := by
  have hx : Exec (writeFile (lit "WRITE_SYNC|./s/f|abcdefghijklmnopqrstuvwxyz0123456789"))
      (syncTrace (lit "abcdefghijklmnopqrstuvwxyz0123456789\n"))
      (some (lit "Data written successfully\n")) :=
    exec_of_replay (by decide +kernel)
  have hx' : Exec (writeFileAsync
        (lit "WRITE_ASYNC|./s/f|10.0.0.9|5000|abcdefghijklmnopqrstuvwxyz0123456789"))
      (asyncTrace (List.replicate 32 120 ++ [0])
        [lit "abcdefghijklmnopqrstuvwxyz012345", lit "6789\n"]) (some ()) :=
    exec_of_replay (by decide +kernel)
  have hsync : (tokens bar (lit "WRITE_SYNC|./s/f|abcdefghijklmnopqrstuvwxyz0123456789"))[2]? =
      some (lit "abcdefghijklmnopqrstuvwxyz0123456789") := by
    decide +kernel
  have hsame := async_appends_as_sync_iff hsync (by decide +kernel) (by decide) (by decide) hx
    (opensFile_syncTrace _) hx' (stack_mem_asyncTrace _ _)
  exact hsame.2.mpr (by decide)

/-- What the array held before is appended behind the data. -/
theorem async_appends_old_stack :
    ¬ ∀ (command buffer data array : Text) (tr tr' : List SsEvent) (out : Option Text)
      (out' : Option Unit), (tokens bar command)[2]? = some data →
      (tokens bar buffer)[4]? = some data → (∀ b ∈ data, b ≠ 0 ∧ b ≠ 10) → data ≠ [] →
      array.length = asyncBuffLen + 1 → Exec (writeFile command) tr out → OpensFile tr →
      Exec (writeFileAsync buffer) tr' out' → (⟨.stack, array⟩ : SsEvent) ∈ tr' →
      printedText tr' = printedText tr := by
  intro hall
  have hx' : Exec (writeFileAsync (lit "WRITE_ASYNC|./s/f|10.0.0.9|5000|a"))
      (asyncTrace (lit "xy" ++ List.replicate 31 0) [lit "ay\n"]) (some ()) :=
    exec_of_replay (by decide +kernel)
  have hx : Exec (writeFile (lit "WRITE_SYNC|./s/f|a")) (syncTrace (lit "a\n"))
      (some (lit "Data written successfully\n")) :=
    exec_of_replay (by decide +kernel)
  have hsame := hall _ _ (lit "a") _ _ _ _ _ (by decide) (by decide) (by simp [lit]) (by decide)
    (by decide) hx (opensFile_syncTrace _) hx' (stack_mem_asyncTrace _ _)
  exact absurd hsame (by decide)

end Runs

end NetworkFileSystem.Storage
