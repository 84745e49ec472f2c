import NetworkFileSystem.Base.Leases
import NetworkFileSystem.Protocol.Message

/-!
# Descriptors of a storage server

`storage_server.c:39–345,598–625`, `helper.c:211–273,296–405,934–1140`. The threads of a storage
server share one table of descriptors, and the kernel gives out again what was closed. Here the
handlers of clients are programs over that table; what they read and write is left out, and so
are the locks, which only delay them.
-/

namespace NetworkFileSystem.Storage.Descriptors

open Base Base.Prog Protocol

/-- What a handler does with descriptors. `accept` is the connection that the listening thread
hands to it by value; `obtain` is `open`, `fopen`, `opendir`, or `socket` with `connect`;
`createThread` is the `pthread_create` for an asynchronous write; `test` and `rounds` stand for what
depends on data: a condition, and how often a loop goes round. -/
inductive FdOp where
  | accept
  | obtain
  | read (fd : Nat)
  | write (fd : Nat)
  | close (fd : Nat)
  | createThread
  | test
  | rounds

/-- The outcomes of an operation; a read or a write may fail. -/
@[reducible] def FdOp.Res : FdOp → Type
  | .accept => Nat
  | .obtain => Option Nat
  | .read _ | .write _ | .createThread | .test => Bool
  | .close _ => Unit
  | .rounds => Nat

/-- Programs of handlers. -/
abbrev FdProg (α : Type) : Type := Prog FdOp FdOp.Res α

/-- An operation with its outcome. -/
abbrev FdEvent : Type := Event FdOp FdOp.Res

/-- Perform one operation. -/
def perform (o : FdOp) : FdProg o.Res := Prog.call o

/-! ### Writes -/

/-- `SendACKToNM`, `storage_server.c:204–249`, and again at `151–198`: the server exits unless the
naming server can be told. -/
def sendAckToNm : FdProg Unit := do
  match ← perform .obtain with
  | none => .abort
  | some sock1 =>
    if ← perform (.write sock1) then perform (.close sock1) else .abort

/-- `storage_server.c:39–74`. -/
def writeFile (command : Text) : FdProg Unit := do
  let _ ← Prog.ofOption (tokens bar command)[1]?
  match ← perform .obtain with
  | none => pure ()
  | some file =>
    let _ ← Prog.ofOption (tokens bar command)[2]?
    let _ ← perform (.write file)
    perform (.close file)

/-- The loop at `storage_server.c:125–136`. -/
def printChunks (file : Nat) : Nat → FdProg Unit
  | 0 => do
    let _ ← perform (.write file)
    pure ()
  | n + 1 => do
    let _ ← perform (.write file)
    printChunks file n

/-- `storage_server.c:76–202`. -/
def writeFileAsync (sock : Nat) (command : Text) : FdProg Unit := do
  let _ ← perform (.write sock)
  let _ ← Prog.ofOption (tokens bar command)[1]?
  match ← perform .obtain with
  | none =>
    let _ ← perform (.write sock)
    perform (.close sock)
  | some file =>
    let _ ← Prog.ofOption (tokens bar command)[4]?
    let n ← perform .rounds
    printChunks file n
    sendAckToNm
    perform (.close file)
    perform (.close sock)

/-! ### Reads -/

/-- The loop at `helper.c:327–334`, and at `383–390`; the result says whether all was sent. -/
def sendBlocks (fd sock : Nat) : Nat → FdProg Bool
  | 0 => pure true
  | n + 1 => do
    let _ ← perform (.read fd)
    if ← perform (.write sock) then sendBlocks fd sock n else pure false

/-- `helper.c:296–347`. Whatever happens, the connection is closed here, unless it has failed
before there was a path. -/
def readFile (path : Option Text) (sock : Nat) : FdProg Unit := do
  match path with
  | none => if ← perform (.write sock) then perform (.close sock) else pure ()
  | some _ =>
    match ← perform .obtain with
    | none =>
      let _ ← perform (.write sock)
      perform (.close sock)
    | some fd =>
      let n ← perform .rounds
      let _ ← sendBlocks fd sock n
      perform (.close fd)
      perform (.close sock)

/-- `helper.c:350–405`, with the descriptors as in `read_file`. -/
def readMp3File (path : Option Text) (sock : Nat) : FdProg Unit := readFile path sock

/-- The loop at `helper.c:243–262` and what is sent behind it. -/
def listEntries (dir sock : Nat) : Nat → FdProg Unit
  | 0 => do
    if ← perform .test then
      let _ ← perform (.write sock)
      perform (.close dir)
    else perform (.close dir)
  | n + 1 => do
    let _ ← perform (.read dir)
    if ← perform .test then
      if ← perform (.write sock) then listEntries dir sock n else perform (.close dir)
    else listEntries dir sock n

/-- `helper.c:212–273`. -/
def listFile (path : Option Text) (sock : Nat) : FdProg Unit := do
  match path with
  | none =>
    let _ ← perform (.write sock)
    pure ()
  | some _ =>
    match ← perform .obtain with
    | none =>
      let _ ← perform (.write sock)
      pure ()
    | some dir =>
      let n ← perform .rounds
      listEntries dir sock n

/-! ### Copies from another server -/

/-- The inner loop at `helper.c:973–984`: one block from the connection. -/
def receiveBlock (sock : Nat) : Nat → FdProg Bool
  | 0 => pure true
  | n + 1 => do
    if ← perform (.read sock) then receiveBlock sock n else pure false

/-- The outer loop at `helper.c:966–1002`. -/
def receiveContents (sock file : Nat) : Nat → FdProg Unit
  | 0 => pure ()
  | n + 1 => do
    let k ← perform .rounds
    if ← receiveBlock sock k then
      if ← perform (.write file) then
        let _ ← perform (.write sock)
        receiveContents sock file n
      else pure ()
    else pure ()

/-- `helper.c:943–1010`. -/
def receiveAndSaveFile (sock : Nat) : FdProg Unit := do
  if ← perform (.read sock) then
    let _ ← perform (.write sock)
    match ← perform .obtain with
    | none => pure ()
    | some file =>
      let n ← perform .rounds
      receiveContents sock file n
      perform (.close file)
  else pure ()

/-- The loop at `helper.c:1037–1076`: `END`, `FILE`, `DIR` or something else. -/
def receiveEntries (sock : Nat) : Nat → FdProg Unit
  | 0 => pure ()
  | n + 1 => do
    if ← perform (.read sock) then
      if ← perform .test then pure ()
      else if ← perform .test then
        let _ ← perform (.write sock)
        receiveAndSaveFile sock
        receiveEntries sock n
      else if ← perform .test then
        let _ ← perform (.write sock)
        receiveEntries sock n
      else receiveEntries sock n
    else pure ()

/-- `helper.c:1012–1076`; `copy_different_dest_b` does the same with its descriptors. -/
def copyDifferentDest (sock : Nat) : FdProg Unit := do
  let _ ← perform (.write sock)
  if ← perform (.read sock) then
    if ← perform .test then
      let _ ← perform (.write sock)
      let n ← perform .rounds
      receiveEntries sock n
    else pure ()
  else pure ()

/-! ### Requests -/

/-- The requests that `process_client` tells apart. -/
inductive ClientVerb where
  | writeSync
  | ping
  | writeAsync
  | sscopyb
  | sscopy
  | ls
  | cat
  | stream
  | getInfo
  deriving DecidableEq

namespace ClientVerb

/-- What the buffer is compared with. -/
def name : ClientVerb → Text
  | .writeSync => lit "WRITE_SYNC|"
  | .ping => lit "ping"
  | .writeAsync => lit "WRITE_ASYNC|"
  | .sscopyb => lit "sscopyb"
  | .sscopy => lit "sscopy"
  | .ls => lit "ls"
  | .cat => lit "cat"
  | .stream => lit "stream"
  | .getInfo => lit "get_info"

/-- In the order of the tests. -/
def all : List ClientVerb :=
  [.writeSync, .ping, .writeAsync, .sscopyb, .sscopy, .ls, .cat, .stream, .getInfo]

end ClientVerb

/-- The test that succeeds for a buffer. -/
def clientVerb (buffer : Text) : Option ClientVerb :=
  ClientVerb.all.find? (fun v ↦ startsWith v.name buffer)

/-- `process_client` for a connection over which `buffer` is received, `storage_server.c:255–345`;
an argument that is not there is taken for `NULL`. -/
def processClient (buffer : Text) : FdProg Unit := do
  let sock ← perform .accept
  let _ ← perform (.read sock)
  let path := (words buffer)[1]?
  match clientVerb buffer with
  | some .writeSync =>
    writeFile buffer
    let _ ← perform (.write sock)
    sendAckToNm
    perform (.close sock)
  -- The connection is closed at the end of `write_file_async`, in a thread of its own; whether
  -- there is one is not asked.
  | some .writeAsync => if ← perform .createThread then writeFileAsync sock buffer else pure ()
  | some .ping | some .getInfo =>
    let _ ← perform (.write sock)
    perform (.close sock)
  | some .sscopyb | some .sscopy =>
    copyDifferentDest sock
    perform (.close sock)
  | some .ls =>
    listFile path sock
    perform (.close sock)
  | some .cat =>
    -- The lock of a missing path is looked up through a `NULL` pointer.
    let _ ← Prog.ofOption path
    readFile path sock
    perform (.close sock)
  | some .stream =>
    readMp3File path sock
    perform (.close sock)
  | none => perform (.close sock)

/-! ### The table -/

/-- What an event does with the table of descriptors. -/
def access : FdEvent → Access Nat
  | ⟨.accept, fd⟩ => .take fd
  | ⟨.obtain, some fd⟩ => .take fd
  | ⟨.read fd, _⟩ | ⟨.write fd, _⟩ => .use fd
  | ⟨.close fd, _⟩ => .give fd
  | _ => .none

/-- The runs of handlers, one for each client, from an empty table. -/
def HandlerRun {T : Type} [DecidableEq T] (requests : T → Text) (log : List (T × FdEvent))
    (qs : T → FdProg Unit) (table : Nat → Option T) : Prop :=
  Interleaved (Access.pool access (fun _ ↦ True)) (fun t ↦ processClient (requests t))
    (fun _ ↦ none) log qs table

/-- There is no thread for an asynchronous write. -/
def threadFails : FdEvent → Bool
  | ⟨.createThread, false⟩ => true
  | _ => false

/-- Thread `t` is about to use or close a descriptor that is another thread's. -/
def Trespasses {T : Type} (qs : T → FdProg Unit) (table : Nat → Option T) (t : T) : Prop :=
  ∃ o k r fd u, qs t = .perform o k ∧ (access ⟨o, r⟩).name = some fd ∧ table fd = some u ∧ u ≠ t

/-- The file of the request is sent by a function that closes the connection itself. -/
def ClosesTwice (buffer : Text) : Prop :=
  (clientVerb buffer = some .cat ∧ (words buffer)[1]? ≠ none) ∨ clientVerb buffer = some .stream

instance : DecidablePred ClosesTwice := fun _ ↦ inferInstanceAs (Decidable (_ ∨ _))

/-! ### Handlers that close once -/

section Follows

/-- A handler that starts with the descriptors `s` and ends with those in `s'`; it creates no
thread. -/
private abbrev Leaves {α : Type} (s' s : Multiset Nat) (p : FdProg α) : Prop :=
  Follows (noting threadFails (Access.next access)) (fun _ t ↦ t = (s', false)) (s, false) p

variable {α : Type} {s s' : Multiset Nat} {fd sock : Nat}

private theorem leaves_obtain {f : Option Nat → FdProg α} (hnone : Leaves s' s (f none))
    (hsome : ∀ fd, Leaves s' (fd ::ₘ s) (f (some fd))) : Leaves s' s (perform .obtain >>= f) := by
  refine follows_call (fun r ↦ ?_)
  cases r with
  | none => exact ⟨(s, false), rfl, hnone⟩
  | some fd => exact ⟨(fd ::ₘ s, false), rfl, hsome fd⟩

private theorem leaves_read {f : Bool → FdProg α} (h : fd ∈ s) (hf : ∀ r, Leaves s' s (f r)) :
    Leaves s' s (perform (.read fd) >>= f) :=
  Access.follows_use (fun _ ↦ rfl) (fun _ ↦ rfl) h hf

private theorem leaves_write {f : Bool → FdProg α} (h : fd ∈ s) (hf : ∀ r, Leaves s' s (f r)) :
    Leaves s' s (perform (.write fd) >>= f) :=
  Access.follows_use (fun _ ↦ rfl) (fun _ ↦ rfl) h hf

private theorem leaves_test {f : Bool → FdProg α} (hf : ∀ r, Leaves s' s (f r)) :
    Leaves s' s (perform .test >>= f) :=
  Access.follows_none (fun _ ↦ rfl) (fun _ ↦ rfl) hf

private theorem leaves_rounds {f : Nat → FdProg α} (hf : ∀ n, Leaves s' s (f n)) :
    Leaves s' s (perform .rounds >>= f) :=
  Access.follows_none (fun _ ↦ rfl) (fun _ ↦ rfl) hf

private theorem leaves_close : Leaves s (fd ::ₘ s) (perform (.close fd)) :=
  Access.follows_give (f := .ret) (fun _ ↦ rfl) (fun _ ↦ rfl) (fun _ ↦ rfl)

private theorem leaves_close_bind {f : Unit → FdProg α} (hf : Leaves s' s (f ())) :
    Leaves s' (fd ::ₘ s) (perform (.close fd) >>= f) :=
  Access.follows_give (fun _ ↦ rfl) (fun _ ↦ rfl) (fun _ ↦ hf)

private theorem sendAckToNm_leaves : Leaves s s sendAckToNm := by
  refine leaves_obtain trivial (fun sock1 ↦ ?_)
  refine leaves_write (Multiset.mem_cons_self sock1 s) (fun r ↦ ?_)
  cases r with
  | false => trivial
  | true => exact leaves_close

private theorem writeFile_leaves (command : Text) : Leaves s s (writeFile command) := by
  refine follows_ofOption (fun _ _ ↦ leaves_obtain rfl (fun file ↦ ?_))
  refine follows_ofOption (fun _ _ ↦ ?_)
  exact leaves_write (Multiset.mem_cons_self file s) (fun _ ↦ leaves_close)

private theorem printChunks_leaves (h : fd ∈ s) (n : Nat) : Leaves s s (printChunks fd n) := by
  induction n with
  | zero => exact leaves_write h (fun _ ↦ rfl)
  | succ n ih => exact leaves_write h (fun _ ↦ ih)

/-- The connection is closed in the thread that writes. -/
private theorem writeFileAsync_leaves (command : Text) :
    Leaves s (sock ::ₘ s) (writeFileAsync sock command) := by
  have hsock : sock ∈ sock ::ₘ s := Multiset.mem_cons_self sock s
  refine leaves_write hsock (fun _ ↦ follows_ofOption (fun _ _ ↦ leaves_obtain ?_ (fun file ↦ ?_)))
  · exact leaves_write hsock (fun _ ↦ leaves_close)
  · refine follows_ofOption (fun _ _ ↦ leaves_rounds (fun n ↦ ?_))
    refine follows_seq (printChunks_leaves (Multiset.mem_cons_self file _) n) (fun _ ↦ ?_)
    refine follows_seq sendAckToNm_leaves (fun _ ↦ ?_)
    exact leaves_close_bind leaves_close

private theorem listEntries_leaves {dir : Nat} (h : sock ∈ s) (n : Nat) :
    Leaves s (dir ::ₘ s) (listEntries dir sock n) := by
  have hsock : sock ∈ dir ::ₘ s := Multiset.mem_cons_of_mem h
  induction n with
  | zero =>
    refine leaves_test (fun r ↦ ?_)
    cases r with
    | true => exact leaves_write hsock (fun _ ↦ leaves_close)
    | false => exact leaves_close
  | succ n ih =>
    refine leaves_read (Multiset.mem_cons_self dir s) (fun _ ↦ leaves_test (fun r ↦ ?_))
    cases r with
    | false => exact ih
    | true =>
      refine leaves_write hsock (fun r ↦ ?_)
      cases r with
      | true => exact ih
      | false => exact leaves_close

private theorem listFile_leaves (h : sock ∈ s) (path : Option Text) :
    Leaves s s (listFile path sock) := by
  cases path with
  | none => exact leaves_write h (fun _ ↦ rfl)
  | some path =>
    refine leaves_obtain (leaves_write h (fun _ ↦ rfl)) (fun dir ↦ ?_)
    exact leaves_rounds (fun n ↦ listEntries_leaves h n)

private theorem receiveBlock_leaves (h : sock ∈ s) (n : Nat) :
    Leaves s s (receiveBlock sock n) := by
  induction n with
  | zero => exact rfl
  | succ n ih =>
    refine leaves_read h (fun r ↦ ?_)
    cases r with
    | true => exact ih
    | false => exact rfl

private theorem receiveContents_leaves {file : Nat} (h : sock ∈ s) (hfile : file ∈ s) (n : Nat) :
    Leaves s s (receiveContents sock file n) := by
  induction n with
  | zero => exact rfl
  | succ n ih =>
    refine leaves_rounds (fun k ↦ follows_seq (receiveBlock_leaves h k) (fun r ↦ ?_))
    cases r with
    | false => exact rfl
    | true =>
      refine leaves_write hfile (fun r ↦ ?_)
      cases r with
      | false => exact rfl
      | true => exact leaves_write h (fun _ ↦ ih)

private theorem receiveAndSaveFile_leaves (h : sock ∈ s) :
    Leaves s s (receiveAndSaveFile sock) := by
  refine leaves_read h (fun r ↦ ?_)
  cases r with
  | false => exact rfl
  | true =>
    refine leaves_write h (fun _ ↦ leaves_obtain rfl (fun file ↦ leaves_rounds (fun n ↦ ?_)))
    refine follows_seq (receiveContents_leaves (Multiset.mem_cons_of_mem h)
      (Multiset.mem_cons_self file s) n) (fun _ ↦ leaves_close)

private theorem receiveEntries_leaves (h : sock ∈ s) (n : Nat) :
    Leaves s s (receiveEntries sock n) := by
  induction n with
  | zero => exact rfl
  | succ n ih =>
    refine leaves_read h (fun r ↦ ?_)
    cases r with
    | false => exact rfl
    | true =>
      -- `END`, `FILE` and `DIR` are told apart one after the other.
      refine leaves_test (fun isEnd ↦ ?_)
      cases isEnd with
      | true => exact rfl
      | false =>
        refine leaves_test (fun isFile ↦ ?_)
        cases isFile with
        | true =>
          exact leaves_write h (fun _ ↦ follows_seq (receiveAndSaveFile_leaves h) (fun _ ↦ ih))
        | false =>
          refine leaves_test (fun isDir ↦ ?_)
          cases isDir with
          | true => exact leaves_write h (fun _ ↦ ih)
          | false => exact ih

private theorem copyDifferentDest_leaves (h : sock ∈ s) :
    Leaves s s (copyDifferentDest sock) := by
  refine leaves_write h (fun _ ↦ leaves_read h (fun r ↦ ?_))
  cases r with
  | false => exact rfl
  | true =>
    refine leaves_test (fun r ↦ ?_)
    cases r with
    | false => exact rfl
    | true => exact leaves_write h (fun _ ↦ leaves_rounds (fun n ↦ receiveEntries_leaves h n))

/-- A handler keeps a descriptor exactly if there was no thread for its write. -/
private def Settled (t : Multiset Nat × Bool) : Prop :=
  (t.2 = false → t.1 = 0) ∧ (t.2 = true → t.1 ≠ 0)

private theorem settled_of_leaves {p : FdProg α} (h : Leaves 0 s p) :
    Follows (noting threadFails (Access.next access)) (fun _ t ↦ Settled t) (s, false) p := by
  refine h.mono (fun _ _ ht ↦ ?_)
  rw [ht]
  exact ⟨fun _ ↦ rfl, fun hfailed ↦ Bool.noConfusion hfailed⟩

private theorem settled_failed (sock : Nat) : Settled ({sock}, true) :=
  ⟨fun hcreated ↦ Bool.noConfusion hcreated, fun _ ↦ Multiset.singleton_ne_zero sock⟩

/-- A handler whose connection is not closed in `read_file` gives back all it has taken, unless
there is no thread for its write. -/
private theorem processClient_settles {buffer : Text} (h : ¬ ClosesTwice buffer) :
    Follows (noting threadFails (Access.next access)) (fun _ t ↦ Settled t) (0, false)
      (processClient buffer) := by
  refine follows_call (fun sock ↦ ⟨({sock}, false), rfl, ?_⟩)
  have hsock : sock ∈ ({sock} : Multiset Nat) := Multiset.mem_singleton_self sock
  refine Access.follows_use (fun _ ↦ rfl) (fun _ ↦ rfl) hsock (fun _ ↦ ?_)
  cases hverb : clientVerb buffer with
  | none => exact settled_of_leaves leaves_close
  | some verb =>
    cases verb with
    | writeSync =>
      refine settled_of_leaves (follows_seq (writeFile_leaves buffer) (fun _ ↦ ?_))
      refine leaves_write hsock (fun _ ↦ ?_)
      exact follows_seq sendAckToNm_leaves (fun _ ↦ leaves_close)
    | writeAsync =>
      refine follows_call (fun created ↦ ?_)
      cases created with
      | true => exact ⟨({sock}, false), rfl, settled_of_leaves (writeFileAsync_leaves buffer)⟩
      | false =>
        refine ⟨({sock}, true), rfl, ?_⟩
        exact settled_failed sock
    | ping | getInfo => exact settled_of_leaves (leaves_write hsock (fun _ ↦ leaves_close))
    | sscopyb | sscopy =>
      exact settled_of_leaves (follows_seq (copyDifferentDest_leaves hsock) (fun _ ↦ leaves_close))
    | ls =>
      exact settled_of_leaves (follows_seq (listFile_leaves hsock _) (fun _ ↦ leaves_close))
    | cat =>
      refine follows_ofOption (fun path hpath ↦ absurd (.inl ⟨hverb, ?_⟩) h)
      rw [hpath]
      exact Option.some_ne_none path
    | stream => exact absurd (.inr hverb) h

end Follows

/-! ### A connection that is closed twice -/

section Twice

variable {T : Type} [DecidableEq T] {requests : T → Text} {log : List (T × FdEvent)}
  {qs : T → FdProg Unit} {table : Nat → Option T} {t : T}

/-- One operation of a thread. -/
private theorem HandlerRun.perform (h : HandlerRun requests log qs table) {o : FdOp}
    {k : o.Res → FdProg Unit} (hq : qs t = .perform o k) (r : o.Res) {table' : Nat → Option T}
    (hr : Access.respond access t ⟨o, r⟩ table table') :
    HandlerRun requests (log ++ [(t, ⟨o, r⟩)]) (Function.update qs t (k r)) table' :=
  Interleaved.step h hq ⟨trivial, hr⟩

/-- In `read_file` the connection `0` can be closed for a file that is not there; the handler
closes it again afterwards. -/
private theorem exists_close_again (h : HandlerRun requests log qs table) {path : Option Text}
    {k : FdProg Unit} (hq : qs t = (do readFile path 0; k)) :
    ∃ log', HandlerRun requests log' (Function.update qs t k)
      (Function.update table 0 none) := by
  cases path with
  | none =>
    have hsent := h.perform hq true rfl
    have hclosed := hsent.perform (Function.update_self t _ qs) () rfl
    rw [Function.update_idem] at hclosed
    exact ⟨_, hclosed⟩
  | some path =>
    have hmissing := h.perform hq none rfl
    have hsent := hmissing.perform (Function.update_self t _ qs) true rfl
    have hclosed := hsent.perform (Function.update_self t _ _) () rfl
    rw [Function.update_idem, Function.update_idem] at hclosed
    exact ⟨_, hclosed⟩

private theorem processClient_of_closesTwice {buffer : Text} (h : ClosesTwice buffer) :
    ∃ path, processClient buffer = (do
      let sock ← perform .accept
      let _ ← perform (.read sock)
      readFile path sock
      perform (.close sock)) := by
  refine ⟨(words buffer)[1]?, ?_⟩
  unfold processClient
  obtain ⟨hverb, hpath⟩ | hverb := h
  · obtain ⟨path, hpath⟩ := Option.ne_none_iff_exists'.mp hpath
    simp only [hverb, hpath]
    rfl
  · simp only [hverb]
    rfl

/-- Between the two, another client is let in with the same descriptor. -/
private theorem exists_trespass [Nontrivial T] (h : ClosesTwice (requests t)) :
    ∃ log qs table, HandlerRun requests log qs table ∧ Trespasses qs table t := by
  obtain ⟨u, hut⟩ := exists_ne t
  obtain ⟨path, hpath⟩ := processClient_of_closesTwice h
  have hstart : HandlerRun requests [] (fun t ↦ processClient (requests t)) (fun _ ↦ none) := .start
  have haccepted := hstart.perform (t := t) hpath (0 : Nat) ⟨rfl, rfl⟩
  have hread := haccepted.perform (Function.update_self t _ _) true rfl
  rw [Function.update_idem] at hread
  obtain ⟨log, hclosed⟩ := exists_close_again hread (Function.update_self t _ _)
  rw [Function.update_idem, Function.update_idem] at hclosed
  have hother := hclosed.perform (t := u) (Function.update_of_ne hut _ _) (0 : Nat)
    ⟨Function.update_self 0 _ _, rfl⟩
  refine ⟨_, _, _, hother, .close 0, Prog.ret, (), 0, u, ?_, rfl, Function.update_self 0 _ _, hut⟩
  rw [Function.update_of_ne hut.symm, Function.update_self]
  rfl

end Twice

/-! ### Threads of a storage server and their descriptors -/

section Owes

variable {sock : Nat}

private theorem sendBlocks_leaves {fd : Nat} {s : Multiset Nat} (hfd : fd ∈ s) (hsock : sock ∈ s)
    (n : Nat) : Leaves s s (sendBlocks fd sock n) := by
  induction n with
  | zero => exact rfl
  | succ n ih =>
    refine leaves_read hfd (fun _ ↦ leaves_write hsock (fun r ↦ ?_))
    cases r with
    | true => exact ih
    | false => exact rfl

/-- Only without a path the connection can be left open. -/
private theorem readFile_follows (path : Option Text) :
    Follows (noting threadFails (Access.next access))
      (fun _ t ↦ t = (0, false) ∨ t = ({sock}, false)) ({sock}, false) (readFile path sock) := by
  have hsock : sock ∈ ({sock} : Multiset Nat) := Multiset.mem_singleton_self sock
  have hclose : Follows (noting threadFails (Access.next access))
      (fun _ t ↦ t = (0, false) ∨ t = ({sock}, false)) ({sock}, false) (perform (.close sock)) :=
    Follows.mono (leaves_close (s := 0)) (fun _ _ h ↦ .inl h)
  cases path with
  | none =>
    refine Access.follows_use (fun _ ↦ rfl) (fun _ ↦ rfl) hsock (fun r ↦ ?_)
    cases r with
    | true => exact hclose
    | false => exact .inr rfl
  | some path =>
    refine follows_call (fun r ↦ ?_)
    cases r with
    | none =>
      refine ⟨({sock}, false), rfl, ?_⟩
      exact Access.follows_use (fun _ ↦ rfl) (fun _ ↦ rfl) hsock (fun _ ↦ hclose)
    | some fd =>
      refine ⟨(fd ::ₘ {sock}, false), rfl, Access.follows_none (fun _ ↦ rfl) (fun _ ↦ rfl)
        (fun n ↦ ?_)⟩
      refine follows_seq (sendBlocks_leaves (Multiset.mem_cons_self fd _)
        (Multiset.mem_cons_of_mem hsock) n) (fun _ ↦ ?_)
      exact Access.follows_give (fun _ ↦ rfl) (fun _ ↦ rfl) (fun _ ↦ hclose)

/-- Every handler that has its thread closes what it opens, and some close more than that. -/
private theorem processClient_owes (buffer : Text) :
    Follows (noting threadFails (Access.owes access)) (fun _ t ↦ t.2 = false → t.1 = 0) (0, false)
      (processClient buffer) := by
  have howe : ∀ s e s', Access.next access s e = some s' → Access.owes access s e = some s' :=
    fun _ _ _ hs ↦ Access.owes_of_next hs
  have howes := noting_mono (P := threadFails) howe
  by_cases h : ClosesTwice buffer
  · obtain ⟨path, hpath⟩ := processClient_of_closesTwice h
    rw [hpath]
    refine follows_call (fun sock ↦ ⟨({sock}, false), rfl,
      follows_step ({sock}, false) (fun _ ↦ rfl) (fun _ ↦ ?_)⟩)
    refine follows_bind ((readFile_follows path).of_imp howes) (fun _ t ht ↦ ?_)
    refine fun _ ↦ ⟨(t.1.erase sock, t.2), ?_, fun _ ↦ ?_⟩
    · simp [noting, Access.owes, access, threadFails]
    · rcases ht with rfl | rfl
      · exact Multiset.erase_of_notMem (Multiset.notMem_zero sock)
      · exact Multiset.erase_cons_head sock 0
  · exact ((processClient_settles h).mono (fun _ _ ht ↦ ht.1)).of_imp howes

end Owes

/-- What has been noted of a thread is in the log. -/
private theorem any_threadFails {T : Type} [DecidableEq T] {log : List (T × FdEvent)} {t : T} :
    (own t log).any threadFails = true ↔ (t, ⟨.createThread, false⟩) ∈ log := by
  rw [List.any_eq_true, ← mem_own]
  constructor
  · rintro ⟨⟨o, r⟩, he, hfails⟩
    cases o with
    | createThread =>
      cases r with
      | false => exact he
      | true => cases hfails
    | accept | obtain | read fd | write fd | close fd | test | rounds => cases hfails
  · exact fun he ↦ ⟨_, he, rfl⟩

/-- A client that lists a folder and one that writes asynchronously; for the second there is no
thread. -/
def listAndWrite (listing : Bool) : Text :=
  if listing then lit "ls ./s" else lit "WRITE_ASYNC|./s/f|10.0.0.9|5000|hi"

end NetworkFileSystem.Storage.Descriptors
