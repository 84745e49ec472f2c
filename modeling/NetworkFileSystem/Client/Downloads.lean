import NetworkFileSystem.Base.CharArray
import NetworkFileSystem.Base.Pipe
import NetworkFileSystem.Base.Progress
import NetworkFileSystem.Storage.Requests

/-!
# Files on their way to a client

`client.c:53–183`, `helper.c:296–405`. A storage server sends a file block by block and closes
the connection. The client takes pieces of any size: `cat` prints each as a C string, `stream`
hands each to the player, and waits in front of the next one while the user has paused it.
-/

namespace NetworkFileSystem.Client

open Base Protocol Storage Prog

/-! ### The server -/

/-- The outcomes of the calls of a read, if the file is `file` and the client goes on reading. -/
def readOutcome (file : Option Text) : (o : SsOp) → o.Res → Prop
  | .openRead _, r => r.map List.flatten = file ∧ ∀ blocks ∈ r, [] ∉ blocks
  | .send _, ok => ok = true
  | _, _ => True

/-- What an operation puts on the connection. -/
def sentBy : SsOp → Text
  | .send text => text
  | _ => []

/-- In every run the program comes back and has sent `text`. -/
def Sends {α : Type} (file : Option Text) : SsProg α → Text → Prop
  | .ret _, text => text = []
  | .abort, _ => False
  | .perform o k, text =>
    ∀ r, readOutcome file o r → ∃ rest, text = sentBy o ++ rest ∧ Sends file (k r) rest

/-- What is sent for a read of `path`; `size` is the size of the buffer for the error message. -/
def readReply (size : Nat) (path : Text) (file : Option Text) : Text :=
  file.getD (clip size (lit "Could not open file: " ++ path ++ lit "\n"))

section Server

variable {α β : Type} {file : Option Text} {path : Text}

theorem Sends.bind {p : SsProg α} {f : α → SsProg β} {t u : Text} (hp : Sends file p t)
    (hf : ∀ a, Sends file (f a) u) : Sends file (p >>= f) (t ++ u) := by
  change Sends file (p.bind f) (t ++ u)
  induction p generalizing t with
  | ret a =>
    obtain rfl : t = [] := hp
    exact hf a
  | abort => exact hp.elim
  | perform o k ih =>
    intro r hr
    obtain ⟨rest, rfl, hrest⟩ := hp r hr
    exact ⟨rest ++ u, List.append_assoc _ _ _, ih r hrest⟩

/-- An operation that sends nothing, and what is behind it. -/
private theorem Sends.silent {o : SsOp} {f : o.Res → SsProg β} {u : Text} (ho : sentBy o = [])
    (hf : ∀ r, readOutcome file o r → Sends file (f r) u) :
    Sends file (Storage.perform o >>= f) u := by
  intro r hr
  exact ⟨u, by rw [ho, List.nil_append], hf r hr⟩

private theorem sends_lockIndex (path : Text) : Sends file (lockIndex path) [] := by
  refine .silent rfl (fun r _ ↦ ?_)
  cases r with
  | some i => rfl
  | none => exact fun r _ ↦ ⟨[], rfl, rfl⟩

private theorem sends_sendBlocks (blocks : List Text) :
    Sends file (sendBlocks blocks) blocks.flatten := by
  induction blocks with
  | nil => rfl
  | cons block blocks ih =>
    intro ok hok
    obtain rfl : ok = true := hok
    exact ⟨blocks.flatten, List.flatten_cons, ih⟩

/-- A program that sends the blocks of the file once it is open, and else the message. -/
private theorem sends_file {size : Nat} {f : Option (List Text) → SsProg Unit}
    (hsome : ∀ blocks, f (some blocks) = sendBlocks blocks)
    (hnone : f none = do
      let _ ← Storage.perform (.send (clip size (lit "Could not open file: " ++ path ++ lit "\n")))
      pure ()) :
    Sends file (Storage.perform (.openRead path) >>= f) (readReply size path file) := by
  refine .silent rfl (fun blocks hblocks ↦ ?_)
  obtain ⟨rfl, -⟩ := hblocks
  cases blocks with
  | some blocks =>
    rw [hsome]
    exact sends_sendBlocks blocks
  | none =>
    rw [hnone]
    exact fun ok _ ↦ ⟨[], (List.append_nil _).symm, rfl⟩

/-- `read_file` sends the file. -/
theorem sends_readFile (path : Text) :
    Sends file (readFile path) (readReply bufferSize path file) :=
  sends_file (fun _ ↦ rfl) rfl

/-- `read_mp3_file` sends the file. -/
theorem sends_readMp3File (path : Text) :
    Sends file (readMp3File path) (readReply bufferSizeForMusic path file) :=
  sends_file (fun _ ↦ rfl) rfl

/-- So does the handler of `cat`, whatever the lock does. -/
theorem sends_cat (path : Text) :
    Sends file (Request.program (.cat path)) (readReply bufferSize path file) := by
  have hrest : ∀ i, Sends file (do
      let _ ← Storage.perform (.acquire .read i)
      readFile path
      let _ ← Storage.perform (.release .read i)
      pure ()) (readReply bufferSize path file) := by
    intro i
    refine .silent rfl (fun _ _ ↦ ?_)
    rw [← List.append_nil (readReply bufferSize path file)]
    exact (sends_readFile path).bind (fun _ ↦ .silent rfl (fun _ _ ↦ rfl))
  exact (sends_lockIndex path).bind hrest

end Server

/-! ### The client -/

/-- A client's loop: how much it asks for at a time, and how a piece may come out. -/
structure Reader where
  size : Nat
  size_pos : 0 < size
  shows : Text → Text → Prop
  shows_some : ∀ t, t.length ≤ size → ∃ out, shows t out

/-- `response` is printed behind a receive, `client.c:57–62`; a NUL outside the array is
undefined. -/
def printResponse (response : CharArray bufferSize) (bytes : Text) : Option Text := do
  let response ← (response.store 0 bytes).poke bytes.length 0
  pure response.text

/-- There is always room for the NUL. -/
theorem printResponse_eq {response : CharArray bufferSize} {bytes : Text}
    (h : bytes.length ≤ bufferSize - 1) :
    printResponse response bytes = some (cstr bytes) := by
  have hsome : ((response.store 0 bytes).poke bytes.length 0).isSome := by
    rw [CharArray.isSome_poke]
    have hpos : 0 < bufferSize := by decide
    omega
  obtain ⟨array, harray⟩ := Option.isSome_iff_exists.mp hsome
  rw [printResponse, harray, ← CharArray.text_poke harray]
  rfl

theorem eq_cstr_of_printResponse {response : CharArray bufferSize} {bytes out : Text}
    (h : printResponse response bytes = some out) : out = cstr bytes := by
  rw [printResponse, Option.bind_eq_bind, Option.bind_eq_some_iff] at h
  obtain ⟨array, harray, hout⟩ := h
  rw [← CharArray.text_poke harray]
  exact (Option.some.inj hout).symm

/-- The loop of `sendAndRecieveFromSS`, `client.c:53–63`. -/
def terminal : Reader where
  size := bufferSize - 1
  size_pos := by decide
  shows bytes out := ∃ response, printResponse response bytes = some out
  shows_some bytes h := ⟨_, CharArray.zeros bufferSize, printResponse_eq h⟩

/-- The loop of `streamMusicFromSS`, `client.c:142–175`; the player takes every byte. -/
def player : Reader where
  size := bufferSizeForMusic
  size_pos := by decide
  shows bytes out := out = bytes
  shows_some bytes _ := ⟨bytes, rfl⟩

/-- Where the client is in its loop: in front of the test of `isPaused`, in the receive, at the
output of a piece, behind the loop. -/
inductive Turn where
  | test
  | receive
  | output (bytes : Text)
  | ended

/-- A piece that has been received and not come out yet. -/
def Turn.held : Turn → Text
  | .output bytes => bytes
  | _ => []

/-- How many steps the client still takes without a new piece. -/
def Turn.ahead : Turn → Nat
  | .output _ => 3
  | .test => 2
  | .receive => 1
  | .ended => 0

@[simp] theorem Turn.held_test : Turn.test.held = [] := rfl

@[simp] theorem Turn.held_receive : Turn.receive.held = [] := rfl

@[simp] theorem Turn.held_output (bytes : Text) : (Turn.output bytes).held = bytes := rfl

/-! ### Both of them -/

/-- What the server's thread has left to do, the connection, and the client with what has come
out so far. -/
structure Download where
  server : SsProg Unit
  pipe : Pipe
  turn : Turn
  isPaused : Bool
  shown : Text

namespace Download

/-- A request that was just received. -/
def start (program : SsProg Unit) : Download := ⟨program, .empty, .test, false, []⟩

/-- The steps of the server and of the client. -/
inductive Step (R : Reader) (file : Option Text) : Download → Download → Prop where
  | serve {s : Download} {o : SsOp} {k : o.Res → SsProg Unit} {r : o.Res} :
      s.server = .perform o k → readOutcome file o r →
      Step R file s { s with server := k r, pipe := s.pipe.write (sentBy o) }
  | close {s : Download} : s.server = .ret () → s.pipe.closed = false →
      Step R file s { s with pipe := s.pipe.close }
  | test {s : Download} : s.turn = .test → s.isPaused = false →
      Step R file s { s with turn := .receive }
  | receive {s : Download} {bytes : Text} {pipe : Pipe} : s.turn = .receive →
      Pipe.Reads R.size bytes s.pipe pipe →
      Step R file s { s with pipe := pipe, turn := if bytes = [] then .ended else .output bytes }
  | output {s : Download} {bytes out : Text} : s.turn = .output bytes → R.shows bytes out →
      Step R file s { s with turn := .test, shown := s.shown ++ out }

/-- The user presses `p`, `client.c:72–88`. -/
inductive Key : Download → Download → Prop where
  | press {s : Download} : Key s { s with isPaused := !s.isPaused }

variable {R : Reader} {file : Option Text} {reply : Text} {s s' : Download}

/-- The pieces of `reply` come out as they are. -/
def Exact (R : Reader) (reply : Text) : Prop :=
  ∀ bytes out, bytes <:+: reply → R.shows bytes out → out = bytes

/-- What holds between any two steps. -/
structure Kept (R : Reader) (file : Option Text) (reply : Text) (s : Download) : Prop where
  /-- What has been put out, what is held and on its way, and what will be sent are the reply. -/
  split : ∃ taken rest, Sends file s.server rest ∧
    taken ++ s.turn.held ++ s.pipe.bytes ++ rest = reply ∧ (Exact R reply → s.shown = taken)
  closed : s.pipe.closed = true → s.server = .ret ()
  ended : s.turn = .ended → s.pipe = ⟨[], true⟩
  fits : s.turn.held.length ≤ R.size

theorem Kept.start {program : SsProg Unit} (h : Sends file program reply) :
    Kept R file reply (.start program) where
  split := ⟨[], reply, h, rfl, fun _ ↦ rfl⟩
  closed h := nomatch h
  ended h := nomatch h
  fits := Nat.zero_le _

theorem Kept.step (h : Kept R file reply s) (hs : Step R file s s') : Kept R file reply s' := by
  obtain ⟨taken, rest, hsends, hreply, hshown⟩ := h.split
  cases hs with
  | @serve o k r hserver hr =>
    rw [hserver] at hsends
    obtain ⟨rest', rfl, hrest⟩ := hsends r hr
    have hopen : s.pipe.closed ≠ true := by
      intro hclosed
      rw [h.closed hclosed] at hserver
      cases hserver
    refine ⟨⟨taken, rest', hrest, ?_, hshown⟩, fun hclosed ↦ absurd hclosed hopen,
      fun hended ↦ ?_, h.fits⟩
    · simpa [List.append_assoc] using hreply
    · exact absurd (congrArg Pipe.closed (h.ended hended)) hopen
  | close hserver hopen =>
    refine ⟨⟨taken, rest, hsends, hreply, hshown⟩, fun _ ↦ hserver, fun hended ↦ ?_, h.fits⟩
    rw [h.ended hended] at hopen
    cases hopen
  | test hturn _ =>
    rw [hturn] at hreply
    exact ⟨⟨taken, rest, hsends, hreply, hshown⟩, h.closed, (fun hended ↦ nomatch hended),
      Nat.zero_le _⟩
  | @receive bytes pipe hturn hreads =>
    rw [hturn] at hreply
    by_cases hbytes : bytes = []
    · subst hbytes
      obtain ⟨hpipe, rfl⟩ := hreads.ended
      rw [hpipe] at hreply
      exact ⟨⟨taken, rest, hsends, hreply, hshown⟩, fun _ ↦ h.closed (by rw [hpipe]), fun _ ↦ rfl,
        Nat.zero_le _⟩
    · rw [hreads.bytes_eq] at hreply
      simp only [if_neg hbytes]
      refine ⟨⟨taken, rest, hsends, ?_, hshown⟩, fun hclosed ↦ ?_, (fun hended ↦ nomatch hended),
        hreads.length_le⟩
      · simpa [List.append_assoc] using hreply
      · exact h.closed (hreads.closed_eq ▸ hclosed)
  | @output bytes out hturn hout =>
    rw [hturn] at hreply
    refine ⟨⟨taken ++ bytes, rest, hsends, ?_, fun hexact ↦ ?_⟩, h.closed, (fun hended ↦ nomatch hended),
      Nat.zero_le _⟩
    · simpa [List.append_assoc] using hreply
    · have hinfix : bytes <:+: reply :=
        ⟨taken, s.pipe.bytes ++ rest, by simpa [List.append_assoc] using hreply⟩
      rw [hshown hexact, hexact bytes out hinfix hout]

/-! ### Runs end -/

/-- What the server has left to do, what is on its way, and where the client is. -/
noncomputable def rank (s : Download) : Ordinal.{0} × Nat × Nat × Nat :=
  (s.server.length, if s.pipe.closed then 0 else 1, s.pipe.bytes.length, s.turn.ahead)

/-- Lexicographic comparison of ranks. -/
def Less : Ordinal.{0} × Nat × Nat × Nat → Ordinal.{0} × Nat × Nat × Nat → Prop :=
  Prod.Lex (· < ·) (Prod.Lex (· < ·) (Prod.Lex (· < ·) (· < ·)))

theorem wellFounded_less : WellFounded Less :=
  WellFounded.prod_lex wellFounded_lt (WellFounded.prod_lex wellFounded_lt
    (WellFounded.prod_lex wellFounded_lt wellFounded_lt))

theorem Step.less (hs : Step R file s s') : Less s'.rank s.rank := by
  cases hs with
  | @serve o k r hserver _ =>
    apply Prod.Lex.left
    rw [hserver]
    exact length_rest o k r
  | close _ hopen =>
    apply Prod.Lex.right
    apply Prod.Lex.left
    simp [hopen]
  | test hturn _ =>
    apply Prod.Lex.right
    apply Prod.Lex.right
    apply Prod.Lex.right
    simp [hturn, Turn.ahead]
  | @receive bytes pipe hturn hreads =>
    have hclosed := hreads.closed_eq
    have hbytes := congrArg List.length hreads.bytes_eq
    rw [List.length_append] at hbytes
    unfold rank
    rw [hclosed]
    apply Prod.Lex.right
    apply Prod.Lex.right
    by_cases hnil : bytes = []
    · subst hnil
      rw [hturn, hbytes]
      simp only [List.length_nil, Nat.zero_add]
      exact Prod.Lex.right _ (by decide)
    · apply Prod.Lex.left
      have hpos := List.length_pos_iff.mpr hnil
      change pipe.bytes.length < s.pipe.bytes.length
      omega
  | output hturn _ =>
    apply Prod.Lex.right
    apply Prod.Lex.right
    apply Prod.Lex.right
    simp [hturn, Turn.ahead]

/-- There is an outcome for every call. -/
private theorem exists_readOutcome (file : Option Text) (o : SsOp) : ∃ r, readOutcome file o r := by
  cases o with
  | openRead path =>
    cases file with
    | none => exact ⟨none, rfl, by simp⟩
    | some t =>
      by_cases ht : t = []
      · subst ht
        exact ⟨some [], rfl, by simp⟩
      · exact ⟨some [t], by simp, by simpa using Ne.symm ht⟩
  | send text => exact ⟨true, rfl⟩
  | lookup path => exact ⟨none, trivial⟩
  | create path => exact ⟨0, trivial⟩
  | acquire m i | release m i | fprintf text | fclose => exact ⟨(), trivial⟩
  | fopen path | remove path | notify text => exact ⟨true, trivial⟩
  | stack => exact ⟨[], trivial⟩

/-- Unless the user has paused it, a download only stops behind its end. -/
theorem Kept.stopped (h : Kept R file reply s) (hrun : s.isPaused = false)
    (hstop : ∀ t, ¬ Step R file s t) :
    s.turn = .ended ∧ (Exact R reply → s.shown = reply) := by
  obtain ⟨taken, rest, hsends, hreply, hshown⟩ := h.split
  have hserver : s.server = .ret () := by
    cases hp : s.server with
    | ret _ => rfl
    | abort =>
      rw [hp] at hsends
      exact hsends.elim
    | perform o k =>
      obtain ⟨r, hr⟩ := exists_readOutcome file o
      exact absurd (.serve hp hr) (hstop _)
  have hclosed : s.pipe.closed = true := by
    by_contra hopen
    exact hstop _ (.close hserver (Bool.eq_false_iff.mpr hopen))
  have hended : s.turn = .ended := by
    cases hturn : s.turn with
    | test => exact absurd (.test hturn hrun) (hstop _)
    | receive =>
      obtain ⟨bytes, pipe, hreads⟩ := Pipe.exists_reads R.size_pos (.inr hclosed)
      exact absurd (.receive hturn hreads) (hstop _)
    | output bytes =>
      have hfits := h.fits
      rw [hturn] at hfits
      obtain ⟨out, hout⟩ := R.shows_some bytes hfits
      exact absurd (.output hturn hout) (hstop _)
    | ended => rfl
  refine ⟨hended, fun hexact ↦ ?_⟩
  rw [hserver] at hsends
  obtain rfl : rest = [] := hsends
  rw [hended, h.ended hended] at hreply
  rw [hshown hexact, ← hreply]
  simp [Turn.held]

theorem Step.isPaused (hs : Step R file s s') : s'.isPaused = s.isPaused := by
  cases hs <;> rfl

/-- A download that is not paused any more comes to its end. -/
theorem Kept.ends (h : Kept R file reply s) (hrun : s.isPaused = false) :
    Ends (Step R file) (fun t ↦ t.turn = .ended ∧ (Exact R reply → t.shown = reply)) s := by
  refine .of_rank (I := fun t ↦ Kept R file reply t ∧ t.isPaused = false) wellFounded_less rank
    ⟨h, hrun⟩ ?_ (fun _ _ _ hs ↦ hs.less) (fun t ht hstop ↦ ht.1.stopped ht.2 hstop)
  rintro s t ⟨hk, hp⟩ hs
  exact ⟨hk.step hs, hs.isPaused.trans hp⟩

/-! ### `cat` -/

/-- A C string is printed up to its NUL, so one without is printed whole. -/
theorem exact_terminal (h : 0 ∉ reply) : Exact terminal reply := by
  rintro bytes out hinfix ⟨response, hout⟩
  rw [eq_cstr_of_printResponse hout]
  exact cstr_eq_self (fun h0 ↦ h (List.IsInfix.subset hinfix h0))

private theorem zero_notMem_cstr (s : Text) : 0 ∉ cstr s := by
  intro h0
  simpa using List.mem_takeWhile_imp h0

/-- No NUL ever comes out. -/
private theorem Step.noNul (hs : Step terminal file s s') (h : 0 ∉ s.shown) : 0 ∉ s'.shown := by
  cases hs with
  | output _ hout =>
    obtain ⟨response, hout⟩ := hout
    rw [eq_cstr_of_printResponse hout, List.mem_append, not_or]
    exact ⟨h, zero_notMem_cstr _⟩
  | _ => exact h

/-- Whatever blocks the server reads, and whatever pieces the client gets: the download ends, and
what was printed then is the file, or the message that there is none, if and only if there is no
NUL in it. -/
theorem cat_prints_reply_iff (path : Text) (file : Option Text) :
    Ends (Step terminal file) (fun s ↦ s.turn = .ended ∧
        (s.shown = readReply bufferSize path file ↔ 0 ∉ readReply bufferSize path file))
      (start (Request.program (.cat path))) := by
  have hstart : Kept terminal file (readReply bufferSize path file)
      (start (Request.program (.cat path))) := .start (sends_cat path)
  refine .of_rank (I := fun t ↦ Kept terminal file (readReply bufferSize path file) t ∧
    t.isPaused = false ∧ 0 ∉ t.shown) wellFounded_less rank ⟨hstart, rfl, List.not_mem_nil⟩ ?_
    (fun _ _ _ hs ↦ hs.less) ?_
  · rintro s t ⟨hk, hp, h0⟩ hs
    exact ⟨hk.step hs, hs.isPaused.trans hp, hs.noNul h0⟩
  · rintro t ⟨hk, hp, h0⟩ hstop
    obtain ⟨hended, hshown⟩ := hk.stopped hp hstop
    refine ⟨hended, fun heq ↦ ?_, fun hnul ↦ hshown (exact_terminal hnul)⟩
    rwa [← heq]

/-! ### `stream` -/

theorem exact_player : Exact player reply := fun _ _ _ hout ↦ hout

theorem Kept.key (h : Kept R file reply s) (hs : Key s s') : Kept R file reply s' := by
  cases hs
  exact ⟨h.split, h.closed, h.ended, h.fits⟩

theorem Kept.starts (h : Kept R file reply s) (hexact : Exact R reply) : s.shown <+: reply := by
  obtain ⟨taken, rest, -, hreply, hshown⟩ := h.split
  rw [hshown hexact, ← hreply, List.append_assoc, List.append_assoc]
  exact List.prefix_append _ _

/-- How much may still come out while the user has paused the client. -/
def mayCome (s : Download) : Nat :=
  match s.turn with
  | .output bytes => bytes.length
  | .receive => bufferSizeForMusic
  | _ => 0

/-- While the client is paused, it puts out what it has received or is about to receive. -/
private theorem Step.paused (hs : Step player file s s') (hp : s.isPaused = true) :
    s.shown <+: s'.shown ∧ s'.shown.length + s'.mayCome ≤ s.shown.length + s.mayCome := by
  cases hs with
  | serve | close => exact ⟨List.prefix_rfl, le_rfl⟩
  | test _ hrun =>
    rw [hp] at hrun
    cases hrun
  | @receive bytes pipe hturn hreads =>
    have hlen := hreads.length_le
    refine ⟨List.prefix_rfl, ?_⟩
    by_cases hnil : bytes = []
    · simp [mayCome, hnil]
    · have hout : bytes.length ≤ bufferSizeForMusic := hlen
      simpa [mayCome, hnil, hturn] using hout
  | @output bytes out hturn hout =>
    obtain rfl : out = bytes := hout
    exact ⟨List.prefix_append _ _, by simp [mayCome, hturn]⟩

/-- However often the user presses `p`, and at whatever moments: the player has a part of the file
from its start; while it is paused it gets one more piece at most; and once it runs it gets the
rest. -/
theorem stream_survives_pauses (path : Text) (file : Option Text) {s : Download}
    (h : Reachable (· = start (readMp3File path))
      (fun s s' ↦ Step player file s s' ∨ Key s s') s) :
    s.shown <+: readReply bufferSizeForMusic path file ∧
      (s.isPaused = true → ∀ s', Relation.ReflTransGen (Step player file) s s' →
        s.shown <+: s'.shown ∧ s'.shown.length ≤ s.shown.length + bufferSizeForMusic) ∧
      (s.isPaused = false → Ends (Step player file)
        (fun t ↦ t.turn = .ended ∧ t.shown = readReply bufferSizeForMusic path file) s) := by
  have hkept : Kept player file (readReply bufferSizeForMusic path file) s := by
    apply h.invariant
    · rintro _ rfl
      exact .start (sends_readMp3File path)
    · rintro s t hk (hs | hs)
      · exact hk.step hs
      · exact hk.key hs
  refine ⟨Kept.starts hkept exact_player, fun hp s' hrun ↦ ?_, fun hrun ↦ ?_⟩
  · have hmay : s.mayCome ≤ bufferSizeForMusic := by
      have hfits := hkept.fits
      unfold mayCome
      cases hturn : s.turn with
      | output bytes =>
        rw [hturn] at hfits
        exact hfits
      | receive => exact le_rfl
      | test | ended => exact Nat.zero_le _
    have hall : s'.isPaused = true ∧ s.shown <+: s'.shown ∧
        s'.shown.length + s'.mayCome ≤ s.shown.length + s.mayCome := by
      induction hrun with
      | refl => exact ⟨hp, List.prefix_rfl, le_rfl⟩
      | tail _ hs ih =>
        obtain ⟨hp', hpre, hlen⟩ := ih
        obtain ⟨hpre', hlen'⟩ := hs.paused hp'
        exact ⟨hs.isPaused.trans hp', hpre.trans hpre', hlen'.trans hlen⟩
    obtain ⟨-, hpre, hlen⟩ := hall
    exact ⟨hpre, by omega⟩
  · exact (hkept.ends hrun).imp (fun _ ht ↦ ⟨ht.1, ht.2 exact_player⟩)

/-- Of a file of two blocks the player has the first when the user pauses; it may still get the
second, and does so at the latest when the user goes on. -/
theorem stream_survives_pauses_of_two :
    ∃ s, Reachable (· = start (readMp3File (lit "./s/a")))
        (fun s s' ↦ Step player (some (lit "ID3ABC")) s s' ∨ Key s s') s ∧
      s.isPaused = true ∧ s.shown = lit "ID3" ∧
      (∀ s', Relation.ReflTransGen (Step player (some (lit "ID3ABC"))) s s' →
        lit "ID3" <+: s'.shown ∧ s'.shown.length ≤ 3 + bufferSizeForMusic) ∧
      Ends (Step player (some (lit "ID3ABC")))
        (fun t ↦ t.turn = .ended ∧ t.shown = lit "ID3ABC") { s with isPaused := false } := by
  have hblocks : readOutcome (some (lit "ID3ABC")) (.openRead (lit "./s/a"))
      (some [lit "ID3", lit "ABC"]) := ⟨rfl, by decide⟩
  have hopened : Reachable (· = start (readMp3File (lit "./s/a")))
      (fun s s' ↦ Step player (some (lit "ID3ABC")) s s' ∨ Key s s')
      ⟨sendBlocks [lit "ID3", lit "ABC"], .empty, .test, false, []⟩ :=
    .next (.start rfl) (.inl (.serve (s := start (readMp3File (lit "./s/a"))) rfl hblocks))
  have hsent : Reachable (· = start (readMp3File (lit "./s/a")))
      (fun s s' ↦ Step player (some (lit "ID3ABC")) s s' ∨ Key s s')
      ⟨sendBlocks [lit "ABC"], ⟨lit "ID3", false⟩, .test, false, []⟩ :=
    .next hopened (.inl (.serve
      (s := ⟨sendBlocks [lit "ID3", lit "ABC"], .empty, .test, false, []⟩)
      (o := .send (lit "ID3")) (r := true) rfl rfl))
  have hreceived : Reachable (· = start (readMp3File (lit "./s/a")))
      (fun s s' ↦ Step player (some (lit "ID3ABC")) s s' ∨ Key s s')
      ⟨sendBlocks [lit "ABC"], .empty, .output (lit "ID3"), false, []⟩ :=
    .next (.next hsent (.inl (.test rfl rfl))) (.inl (.receive
      (s := ⟨sendBlocks [lit "ABC"], ⟨lit "ID3", false⟩, .receive, false, []⟩) rfl
      (.piece (t := lit "ID3") (by decide) (by decide))))
  have hpaused : Reachable (· = start (readMp3File (lit "./s/a")))
      (fun s s' ↦ Step player (some (lit "ID3ABC")) s s' ∨ Key s s')
      ⟨sendBlocks [lit "ABC"], .empty, .test, true, lit "ID3"⟩ :=
    .next (.next hreceived (.inl (.output
      (s := ⟨sendBlocks [lit "ABC"], .empty, .output (lit "ID3"), false, []⟩) rfl rfl)))
      (.inr .press)
  refine ⟨_, hpaused, rfl, rfl, fun s' hrun ↦ ?_, ?_⟩
  · exact (stream_survives_pauses (lit "./s/a") (some (lit "ID3ABC")) hpaused).2.1 rfl s' hrun
  · exact (stream_survives_pauses (lit "./s/a") (some (lit "ID3ABC"))
      (.next hpaused (.inr .press))).2.2 rfl

end Download

end NetworkFileSystem.Client
