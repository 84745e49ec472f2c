import NetworkFileSystem.Protocol.Message

/-!
# Commands of the naming server

`storage_server.c:355–596`, `helper.c:71–79`. `listen_to_nm` takes one result of
`recv_good` as one command: it is split at blanks, and the branch is found by comparing
the start of the buffer with the verbs, in this order.
-/

namespace NetworkFileSystem.Storage

open Base Protocol

/-- The branches of `listen_to_nm`, in the order of the tests. -/
inductive Verb where
  | touchb
  | rmdirb
  | rmb
  | mkdirb
  | copydifferentb
  | touch
  | rmdir
  | rm
  | mkdir
  | write
  | reindex
  | copysame
  | lcopy
  | copydifferent
  deriving DecidableEq

namespace Verb

/-- The text that the buffer is compared with. -/
def name : Verb → Text
  | .touchb => lit "touchb"
  | .rmdirb => lit "rmdirb"
  | .rmb => lit "rmb"
  | .mkdirb => lit "mkdirb"
  | .copydifferentb => lit "copydifferentb"
  | .touch => lit "touch"
  | .rmdir => lit "rmdir"
  | .rm => lit "rm"
  | .mkdir => lit "mkdir"
  | .write => lit "write"
  | .reindex => lit "reindex"
  | .copysame => lit "copysame"
  | .lcopy => lit "lcopy"
  | .copydifferent => lit "copydifferent"

/-- All branches in the order of the tests. -/
def all : List Verb :=
  [.touchb, .rmdirb, .rmb, .mkdirb, .copydifferentb, .touch, .rmdir, .rm, .mkdir, .write,
    .reindex, .copysame, .lcopy, .copydifferent]

/-- The commands that a backup repeats for the server it backs up. -/
def isBackup : Verb → Bool
  | .touchb | .rmdirb | .rmb | .mkdirb => true
  | _ => false

/-- How many words the branch reads. The copies to another server take its address from the
fourth and fifth word; `copysame` counts its words itself. -/
def arity : Verb → Nat
  | .touchb | .rmdirb | .rmb | .mkdirb => 2
  | .touch | .rmdir | .rm | .mkdir => 2
  | .copydifferentb | .lcopy | .copydifferent => 5
  | .write | .reindex | .copysame => 1

end Verb

/-- The branch that a buffer takes; `none` if no test succeeds. -/
def branch (buffer : Text) : Option Verb := Verb.all.find? (fun v ↦ startsWith v.name buffer)

/-- `char *args[5]`. -/
def maxArgs : Nat := 5

/-- The words that a branch reads are there; a backup branch skips two bytes of its path. -/
def readable (args : List Text) : Option Verb → Bool
  | none => true
  | some v => decide (v.arity ≤ args.length) &&
      (!v.isBackup || decide (2 ≤ (args[1]?.getD []).length))

/-- The branch and the argument strings with which one received buffer is executed. `none` is
a buffer that fills its array, has too many words, or lacks a word that is read. -/
def execute (buffer : Text) : Option (Option Verb × List Text) :=
  let args := words buffer
  if buffer.length < bufferSize ∧ args.length ≤ maxArgs ∧ readable args (branch buffer) = true then
    some (branch buffer, args)
  else none

/-- The verbs of the backup branches are tested before those that they extend. -/
theorem branch_of_isBackup {v : Verb} (hv : v.isBackup = true) (t : Text) :
    branch (v.name ++ t) = some v := by
  cases v with
  | touchb | rmdirb | rmb | mkdirb => rfl
  | _ => cases hv

/-- A buffer that takes a branch starts with a letter of its verb. -/
theorem head_of_branch {buffer : Text} (h : branch buffer ≠ none) :
    ∃ b rest, buffer = b :: rest ∧ b ≠ blank := by
  obtain ⟨v, hv⟩ := Option.ne_none_iff_exists'.mp h
  have hstart : startsWith v.name buffer = true := by simpa using List.find?_some hv
  obtain ⟨t, rfl⟩ := List.isPrefixOf_iff_prefix.mp hstart
  have hname : ∃ b rest, v.name = b :: rest ∧ b ≠ blank := by
    cases v <;> exact ⟨_, _, rfl, by decide⟩
  obtain ⟨b, rest, hname, hb⟩ := hname
  exact ⟨b, rest ++ t, by rw [hname]; rfl, hb⟩

theorem execute_eq_some {buffer : Text} {v : Option Verb} {args : List Text}
    (h : execute buffer = some (v, args)) : branch buffer = v ∧ words buffer = args := by
  unfold execute at h
  simp only at h
  split at h
  · cases h
    exact ⟨rfl, rfl⟩
  · cases h

/-! ### Replies -/

/-- The messages of `indexSubFolder`, `helper.c:432–487`, for the paths `paths` that it lists:
a line for each, and the end marker. -/
def indexMessages (paths : List Text) : List Text :=
  paths.map indexLine ++ [finishedIndexing ++ lit "\n"]

/-- A send of `strlen(text)` bytes; nothing is sent for the empty text. -/
def message (text : Text) : List Text := if text = [] then [] else [text]

/-- What `listen_to_nm` sends back for one buffer, given the text that the branch leaves in
`buffer2` (whatever that array held if no branch is taken) and the paths that an index lists. -/
def replies (buffer buffer2 : Text) (paths : List Text) : List Text :=
  (if startsWith (lit "ping") buffer then [lit "-ping-"] else []) ++
    match branch buffer with
    | some .reindex => indexMessages paths
    | some v => if v.isBackup then [] else message buffer2
    | none => message buffer2

/-- A text with another first byte does not start with a word. -/
theorem startsWith_cons_ne {a b : UInt8} {p s : Text} (h : a ≠ b) :
    startsWith (a :: p) (b :: s) = false := by
  simp [startsWith, List.isPrefixOf, h]

/-- A command of a backup is not answered. -/
theorem replies_of_isBackup {buffer : Text} {v : Verb} (h : branch buffer = some v)
    (hv : v.isBackup = true) (buffer2 : Text) (paths : List Text) :
    replies buffer buffer2 paths = [] := by
  have hstart : startsWith v.name buffer = true := by simpa using List.find?_some h
  obtain ⟨t, rfl⟩ := List.isPrefixOf_iff_prefix.mp hstart
  have hping : startsWith (lit "ping") (v.name ++ t) = false := by
    cases v <;> exact startsWith_cons_ne (by decide)
  unfold replies
  rw [h, hping]
  cases v <;> simp [Verb.isBackup] at hv ⊢

/-- A command that neither pings nor asks for the index gets at most one message. -/
theorem length_replies_le {buffer : Text} (hping : startsWith (lit "ping") buffer = false)
    (hindex : startsWith (lit "reindex") buffer = false) (buffer2 : Text) (paths : List Text) :
    (replies buffer buffer2 paths).length ≤ 1 := by
  have hmessage : (message buffer2).length ≤ 1 := by
    unfold message
    split <;> simp
  unfold replies
  rw [hping]
  simp only [Bool.false_eq_true, if_false, List.nil_append]
  split
  · next h =>
    have hstart : startsWith (lit "reindex") buffer = true := by
      simpa [Verb.name] using List.find?_some h
    rw [hindex] at hstart
    cases hstart
  · split
    · simp
    · exact hmessage
  · exact hmessage

theorem replies_reindex (buffer2 : Text) (paths : List Text) :
    replies (lit "reindex") buffer2 paths = indexMessages paths := by
  have hb : branch (lit "reindex") = some .reindex := by decide
  have hp : startsWith (lit "ping") (lit "reindex") = false := by decide
  simp [replies, hb, hp]

end NetworkFileSystem.Storage
