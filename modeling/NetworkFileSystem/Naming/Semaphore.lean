import NetworkFileSystem.Naming.Recency
import NetworkFileSystem.Base.Typestate
import Mathlib.Data.Set.Card

/-!
# The semaphore of the naming server

`naming_server.c:38–221,286–519,674–680,829–1040,1347`. The threads of clients and of
registering servers share the cache and the tries, and `storage_semaphore` guards some of
what they do there. Every guarded section begins with a wait and ends with its post. But
`delete_from_cache` posts once more when it does not find its key, and the key can be gone:
nothing guards the time between the lookup that put it there and the deletion. As long as
deletions find their keys, the semaphore gives mutual exclusion.
-/

namespace NetworkFileSystem.Naming.Semaphore

open Base Protocol Trie Prog

/-! ### Threads -/

/-- What the threads share: the value of the semaphore, the cache, the tries of the registered
servers, and `storage_server_index`. -/
structure Shared where
  semaphore : Nat
  cache : LruCache
  roots : List TrieNode
  storageServerIndex : Nat

/-- What a thread does between two looks at the other threads. -/
inductive ThreadOp where
  | semWait
  | semPost
  | searchCache (key : Text)
  /-- The search of `delete_from_cache`, which has no guard. -/
  | searchToDelete (key : Text)
  /-- `cache.queue[i].index`. -/
  | entryIndex (i : Nat)
  | moveToBack (i : Nat)
  | addToCache (key : Text) (index : Nat)
  /-- The loop of `delete_from_cache` and its `cache.size--`. -/
  | shiftOut (i : Nat)
  | searchInTries (path : Text)
  | isSsUp (i : Nat)
  /-- `storage_servers[i].isUp`. -/
  | isUp (i : Nat)
  /-- A line sent to server `i`, with the answer passed on to the client. -/
  | exchange (i : Nat) (line : Text)
  | addPathToTrie (i : Nat) (path : Text)
  | deletePath (i : Nat) (path : Text)
  /-- The segments that `indexHelper` receives. -/
  | recvIndex
  | replaceRoot (i : Nat) (root : TrieNode)
  | findRedundancy (name : Option Text)
  | serverIndex
  /-- `storage_servers[storage_server_index] = ss_info`. -/
  | enterServer (root : TrieNode)
  | createBackupHelper (source dest : Nat)
  /-- `storage_server_index++`. -/
  | nextIndex

/-- The outcomes. -/
@[reducible] def ThreadOp.Res : ThreadOp → Type
  | .searchCache _ | .searchToDelete _ | .searchInTries _ | .findRedundancy _ => Option Nat
  | .entryIndex _ | .serverIndex => Nat
  | .isUp _ => Bool
  | .exchange _ _ => Option Text
  | .recvIndex => List Text
  | _ => Unit

/-- Programs of the threads. -/
abbrev ThreadProg (α : Type) : Type := Prog ThreadOp ThreadOp.Res α

/-- An operation with its outcome. -/
abbrev ThreadEvent : Type := Event ThreadOp ThreadOp.Res

/-- Perform one operation. -/
def perform (o : ThreadOp) : ThreadProg o.Res := Prog.call o

/-- `naming_server.c:486–519`. -/
def searchStorageServer (buffer : Text) : ThreadProg (Option Nat) := do
  perform .semWait
  match ← perform (.searchCache buffer) with
  | some index =>
    let k ← perform (.entryIndex index)
    perform (.moveToBack index)
    perform .semPost
    let indexToSend ← perform (.entryIndex index)
    perform (.isSsUp indexToSend)
    pure (some k)
  | none =>
    match ← perform (.searchInTries buffer) with
    | some found =>
      perform (.addToCache buffer found)
      perform .semPost
      perform (.isSsUp found)
      pure (some found)
    | none =>
      perform .semPost
      pure none

/-- `naming_server.c:458–483`. -/
def deleteFromCache (key : Text) : ThreadProg Unit := do
  match ← perform (.searchToDelete key) with
  | none => perform .semPost
  | some index => perform (.shiftOut index)

/-- `naming_server.c:843–906`, and again at `937–1037`: what follows a successful lookup. -/
def forwardEntry (i : Nat) (line : Text) (change : ThreadProg Unit) : ThreadProg Unit := do
  if ← perform (.isUp i) then
    if confirms (← perform (.exchange i line)) then change

/-- `naming_server.c:829–906`. -/
def makeEntry (line path : Text) : ThreadProg Unit :=
  if isTopPath (beforeLast slash path) then pure ()
  else do
    match ← searchStorageServer (beforeLast slash path) with
    | none => pure ()
    | some i =>
      perform (.addToCache path i)
      forwardEntry i line (perform (.addPathToTrie i path))

/-- `naming_server.c:917–1037`. -/
def removeEntry (line path : Text) : ThreadProg Unit :=
  if isTopPath path then pure ()
  else do
    match ← searchStorageServer path with
    | none => pure ()
    | some i =>
      deleteFromCache path
      forwardEntry i line (perform (.deletePath i path))

/-- `naming_server.c:56–103`. -/
def indexHelper : ThreadProg TrieNode := do
  perform .semWait
  let segments ← perform .recvIndex
  let (root, _) ← Prog.ofOption (Naming.indexHelper segments [] (createNode (lit ".")))
  perform .semPost
  pure root

/-- The copies that a registration starts. -/
def createBackups : List (Nat × Nat) → ThreadProg Unit
  | [] => pure ()
  | (source, dest) :: rest => do
    perform (.createBackupHelper source dest)
    createBackups rest

/-- `naming_server.c:127–221`. -/
def registerStorageServer : ThreadProg Unit := do
  let root ← indexHelper
  match ← perform (.findRedundancy ((exportedFolder root).join.map TrieNode.data)) with
  | some _ => pure ()
  | none =>
    perform .semWait
    let n ← perform .serverIndex
    if n < maxStorageServers then
      perform (.enterServer root)
      createBackups (backupCopies n)
    perform .nextIndex
    perform .semPost

/-- What a thread has to do: a lookup, a line with its path, the end of a copy to server `i`, or
the registration of a server. -/
inductive Task where
  | search (path : Text)
  | make (line path : Text)
  | remove (line path : Text)
  | reindex (i : Nat)
  | register

/-- The code of a task. -/
def Task.program : Task → ThreadProg Unit
  | .search path => do
    let _ ← searchStorageServer path
    pure ()
  | .make line path => makeEntry line path
  | .remove line path => removeEntry line path
  | .reindex i => do
    let root ← indexHelper
    perform (.replaceRoot i root)
  | .register => registerStorageServer

/-- A thread performs its tasks one after the other. -/
def performTasks : List Task → ThreadProg Unit
  | [] => pure ()
  | task :: tasks => do
    task.program
    performTasks tasks

/-! ### Runs -/

/-- `storage_servers[i].root` is changed in place; `none` is a trie operation that is undefined. -/
def updateRoot (w : Shared) (i : Nat) (f : TrieNode → Option TrieNode) : Option Shared := do
  let root ← f (← w.roots[i]?)
  pure { w with roots := w.roots.set i root }

/-- The operations on the shared data. A wait returns when the value is positive; what other
parties answer may be anything. A cache of negative size, or an entry that was never written,
is not used any further. -/
def respond : (o : ThreadOp) → o.Res → Shared → Shared → Prop
  | .semWait, _, w, w' => 0 < w.semaphore ∧ w' = { w with semaphore := w.semaphore - 1 }
  | .semPost, _, w, w' => w' = { w with semaphore := w.semaphore + 1 }
  | .searchCache key, r, w, w' => r = w.cache.searchCache key ∧ w' = w
  | .searchToDelete key, r, w, w' => r = w.cache.searchCache key ∧ w' = w
  | .entryIndex i, r, w, w' => (w.cache.queue.getD i none).map CacheEntry.index = some r ∧ w' = w
  | .moveToBack i, _, w, w' => 0 < w.cache.size ∧ w' = { w with cache := w.cache.moveToBack i }
  | .addToCache key index, _, w, w' => w' = { w with cache := w.cache.addToCache key index }
  | .shiftOut i, _, w, w' => 0 < w.cache.size ∧ w' = { w with cache :=
      ⟨LruCache.shiftLeft w.cache.queue i (w.cache.size - 1 - i), w.cache.size - 1⟩ }
  | .searchInTries path, r, w, w' => searchInTries w.roots path = some r ∧
      (r = none → w.storageServerIndex ≤ w.roots.length) ∧ w' = w
  | .addPathToTrie i path, _, w, w' => updateRoot w i (Trie.addPathToTrie path) = some w'
  | .deletePath i path, _, w, w' => updateRoot w i (Trie.deletePath path) = some w'
  | .replaceRoot i root, _, w, w' => w' = { w with roots := w.roots.set i root }
  | .findRedundancy name, r, w, w' => findRedundancy name w.roots 0 = some r ∧ w' = w
  | .serverIndex, r, w, w' => r = w.storageServerIndex ∧ w' = w
  | .enterServer root, _, w, w' => w' = { w with roots := w.roots ++ [root] }
  | .nextIndex, _, w, w' => w' = { w with storageServerIndex := w.storageServerIndex + 1 }
  | .isSsUp _, _, w, w' | .isUp _, _, w, w' | .exchange _ _, _, w, w' | .recvIndex, _, w, w' |
    .createBackupHelper _ _, _, w, w' => w' = w

/-- The shared data as the environment of the threads, which may do what `allowed` says. -/
def sharedData (T : Type) (allowed : ThreadOp → Shared → Prop) :
    SharedEnvironment T ThreadOp ThreadOp.Res Shared where
  respond := fun _ o r w w' ↦ allowed o w ∧ respond o r w w'
  silent := fun _ _ ↦ False

variable {T : Type} [DecidableEq T]

/-- The runs of threads from data in which the semaphore is free. -/
def ThreadRun (allowed : ThreadOp → Shared → Prop) (tasks : T → List Task) (start : Shared)
    (log : List (T × ThreadEvent)) (qs : T → ThreadProg Unit) (w : Shared) : Prop :=
  start.semaphore = 1 ∧
    Interleaved (sharedData T allowed) (fun t ↦ performTasks (tasks t)) start log qs w

/-- A deletion finds its key in the cache. -/
def Hits : ThreadOp → Shared → Prop
  | .searchToDelete key, w => (w.cache.searchCache key).isSome = true
  | _, _ => True

/-- The waits of a thread that have no post behind them yet. -/
def pending : List ThreadEvent → Nat :=
  List.foldl (fun n e ↦ match e.1 with
    | .semWait => n + 1
    | .semPost => n - 1
    | _ => n) 0

/-- The threads between a wait and its post. -/
def insiders (log : List (T × ThreadEvent)) : Set T := {t | 0 < pending (own t log)}

instance (t : T) (log : List (T × ThreadEvent)) : Decidable (t ∈ insiders log) :=
  inferInstanceAs (Decidable (0 < pending (own t log)))

/-- The value and the threads inside are one together, so no two threads are inside. -/
structure MutualExclusion (log : List (T × ThreadEvent)) (w : Shared) : Prop where
  finite : (insiders log).Finite
  balance : w.semaphore + (insiders log).ncard = 1
  exclusive : ∀ t ∈ insiders log, ∀ u ∈ insiders log, t = u

/-! ### The discipline of a thread -/

/-- Where a thread is: outside the sections, inside one, or behind a deletion without its key. -/
inductive Place where
  | outside
  | inside
  | missed

namespace Place

/-- Waits and posts alternate, but for the post behind a deletion without its key. -/
def next : Place → ThreadEvent → Option Place
  | .outside, ⟨.semWait, _⟩ => some .inside
  | _, ⟨.semWait, _⟩ => none
  | .outside, ⟨.semPost, _⟩ => none
  | _, ⟨.semPost, _⟩ => some .outside
  | .outside, ⟨.searchToDelete _, none⟩ => some .missed
  | s, _ => some s

/-- The waits without a post. -/
def waits : Place → Nat
  | .inside => 1
  | _ => 0

end Place

/-- The program leads from `s` to outside. -/
private abbrev LeavesFrom {α : Type} (s : Place) (p : ThreadProg α) : Prop :=
  Follows Place.next (fun _ s' ↦ s' = .outside) s p

private theorem leaves_last {o : ThreadOp} {s : Place}
    (hs : ∀ r, s.next ⟨o, r⟩ = some .outside) : LeavesFrom s (perform o) :=
  fun r ↦ ⟨.outside, hs r, rfl⟩

private theorem leaves_searchStorageServer (buffer : Text) :
    LeavesFrom .outside (searchStorageServer buffer) := by
  refine follows_step Place.inside (fun _ ↦ rfl) (fun _ ↦ ?_)
  refine follows_step Place.inside (fun _ ↦ rfl) (fun hit ↦ ?_)
  cases hit with
  | some index =>
    refine follows_step Place.inside (fun _ ↦ rfl) (fun k ↦ ?_)
    refine follows_step Place.inside (fun _ ↦ rfl) (fun _ ↦ ?_)
    refine follows_step Place.outside (fun _ ↦ rfl) (fun _ ↦ ?_)
    refine follows_step Place.outside (fun _ ↦ rfl) (fun indexToSend ↦ ?_)
    exact follows_step Place.outside (fun _ ↦ rfl) (fun _ ↦ rfl)
  | none =>
    refine follows_step Place.inside (fun _ ↦ rfl) (fun found ↦ ?_)
    cases found with
    | some i =>
      refine follows_step Place.inside (fun _ ↦ rfl) (fun _ ↦ ?_)
      refine follows_step Place.outside (fun _ ↦ rfl) (fun _ ↦ ?_)
      exact follows_step Place.outside (fun _ ↦ rfl) (fun _ ↦ rfl)
    | none => exact follows_step Place.outside (fun _ ↦ rfl) (fun _ ↦ rfl)

/-- The post of a deletion without its key is not the end of a section. -/
private theorem leaves_deleteFromCache (key : Text) :
    LeavesFrom .outside (deleteFromCache key) := by
  refine follows_call (fun hit ↦ ?_)
  cases hit with
  | none => exact ⟨.missed, rfl, leaves_last (fun _ ↦ rfl)⟩
  | some index => exact ⟨.outside, rfl, leaves_last (fun _ ↦ rfl)⟩

private theorem leaves_forwardEntry (i : Nat) (line : Text) {change : ThreadProg Unit}
    (h : LeavesFrom .outside change) : LeavesFrom .outside (forwardEntry i line change) := by
  refine follows_step Place.outside (fun _ ↦ rfl) (fun up ↦ ?_)
  cases up with
  | false => exact rfl
  | true =>
    refine follows_step Place.outside (fun _ ↦ rfl) (fun answer ↦ ?_)
    by_cases hc : confirms answer = true
    · rw [if_pos hc]
      exact h
    · rw [if_neg hc]
      exact rfl

private theorem leaves_makeEntry (line path : Text) : LeavesFrom .outside (makeEntry line path) := by
  unfold makeEntry
  split
  · exact rfl
  · refine follows_seq (leaves_searchStorageServer _) (fun found ↦ ?_)
    cases found with
    | none => exact rfl
    | some i =>
      refine follows_step Place.outside (fun _ ↦ rfl) (fun _ ↦ ?_)
      exact leaves_forwardEntry i line (leaves_last (fun _ ↦ rfl))

private theorem leaves_removeEntry (line path : Text) :
    LeavesFrom .outside (removeEntry line path) := by
  unfold removeEntry
  split
  · exact rfl
  · refine follows_seq (leaves_searchStorageServer path) (fun found ↦ ?_)
    cases found with
    | none => exact rfl
    | some i =>
      refine follows_seq (leaves_deleteFromCache path) (fun _ ↦ ?_)
      exact leaves_forwardEntry i line (leaves_last (fun _ ↦ rfl))

private theorem leaves_indexHelper : LeavesFrom .outside indexHelper := by
  refine follows_step Place.inside (fun _ ↦ rfl) (fun _ ↦ ?_)
  refine follows_step Place.inside (fun _ ↦ rfl) (fun segments ↦ ?_)
  cases Naming.indexHelper segments [] (createNode (lit ".")) with
  | none => trivial
  | some read => exact follows_step Place.outside (fun _ ↦ rfl) (fun _ ↦ rfl)

/-- The copies are started inside the section. -/
private theorem inside_createBackups (copies : List (Nat × Nat)) :
    Follows Place.next (fun _ s ↦ s = .inside) .inside (createBackups copies) := by
  induction copies with
  | nil => exact rfl
  | cons copy rest ih => exact follows_call (fun _ ↦ ⟨.inside, rfl, ih⟩)

private theorem leaves_registerStorageServer : LeavesFrom .outside registerStorageServer := by
  refine follows_seq leaves_indexHelper (fun root ↦ ?_)
  refine follows_step Place.outside (fun _ ↦ rfl) (fun known ↦ ?_)
  cases known with
  | some i => exact rfl
  | none =>
    refine follows_step Place.inside (fun _ ↦ rfl) (fun _ ↦ ?_)
    refine follows_step Place.inside (fun _ ↦ rfl) (fun n ↦ ?_)
    have hend : LeavesFrom .inside (do perform .nextIndex; perform .semPost) :=
      follows_step Place.inside (fun _ ↦ rfl) (fun _ ↦ leaves_last (fun _ ↦ rfl))
    by_cases hn : n < maxStorageServers
    · rw [if_pos hn]
      refine follows_step Place.inside (fun _ ↦ rfl) (fun _ ↦ ?_)
      exact follows_bind (inside_createBackups _) (fun _ _ hs ↦ hs ▸ hend)
    · rw [if_neg hn]
      exact hend

private theorem leaves_program (task : Task) : LeavesFrom .outside task.program := by
  cases task with
  | search path => exact follows_seq (leaves_searchStorageServer path) (fun _ ↦ rfl)
  | make line path => exact leaves_makeEntry line path
  | remove line path => exact leaves_removeEntry line path
  | reindex i => exact follows_seq leaves_indexHelper (fun _ ↦ leaves_last (fun _ ↦ rfl))
  | register => exact leaves_registerStorageServer

/-- Every thread follows the discipline. -/
theorem follows_stepTasks (tasks : List Task) :
    Follows Place.next (fun _ s ↦ s = .outside) .outside (performTasks tasks) := by
  induction tasks with
  | nil => exact rfl
  | cons task tasks ih => exact follows_seq (leaves_program task) (fun _ ↦ ih)

/-! ### The value of the semaphore -/

private theorem waits_of_next {s s' : Place} {e : ThreadEvent} (h : s.next e = some s') :
    s'.waits = match e.1 with
      | .semWait => s.waits + 1
      | .semPost => s.waits - 1
      | _ => s.waits := by
  obtain ⟨o, r⟩ := e
  cases o with
  | semWait | semPost =>
    cases s <;> simp only [Place.next, Option.some.injEq, reduceCtorEq] at h
    all_goals
      subst h
      rfl
  | searchToDelete key =>
    cases s with
    | outside =>
      cases r with
      | none | some i =>
        cases h
        rfl
    | inside | missed =>
      cases h
      rfl
  | _ =>
    cases s with
    | outside | inside | missed =>
      cases h
      rfl

/-- Where a thread is says how many of its waits have no post. -/
theorem pending_of_stateAfter {tr : List ThreadEvent} {s : Place}
    (h : stateAfter Place.next .outside tr = some s) : pending tr = s.waits := by
  induction tr using List.reverseRecOn generalizing s with
  | nil =>
    cases h
    rfl
  | append_singleton tr e ih =>
    rw [stateAfter_concat] at h
    obtain ⟨s₁, hs₁, he⟩ := Option.bind_eq_some_iff.mp h
    rw [waits_of_next he, ← ih hs₁]
    exact List.foldl_append

/-- The semaphore is free and all threads are outside, or one thread has it. -/
def Balanced (st : T → Place) (w : Shared) : Prop :=
  (w.semaphore = 1 ∧ ∀ t, st t = .outside) ∨
    ∃ t, w.semaphore = 0 ∧ st t = .inside ∧ ∀ u, u ≠ t → st u = .outside

/-- What is neither a wait nor a post changes neither the value nor where the thread is. -/
private theorem unchanged {s s' : Place} {o : ThreadOp} {r : o.Res} {u v : Shared}
    (hwait : o ≠ .semWait) (hpost : o ≠ .semPost) (hs : s.next ⟨o, r⟩ = some s')
    (hit : Hits o u) (hr : respond o r u v) : s' = s ∧ v.semaphore = u.semaphore := by
  cases o with
  | semWait => exact absurd rfl hwait
  | semPost => exact absurd rfl hpost
  | searchToDelete key =>
    obtain ⟨rfl, rfl⟩ := hr
    obtain ⟨i, hi⟩ := Option.isSome_iff_exists.mp hit
    cases s <;> simp_all [Place.next]
  | addPathToTrie i path | deletePath i path =>
    obtain ⟨root, -, hroot⟩ := Option.bind_eq_some_iff.mp hr
    obtain ⟨root', -, hv⟩ := Option.bind_eq_some_iff.mp hroot
    cases hv
    cases s <;> exact ⟨(Option.some.inj hs).symm, rfl⟩
  | searchCache | entryIndex | searchInTries | findRedundancy | serverIndex | moveToBack |
      shiftOut =>
    have hv : v.semaphore = u.semaphore := by
      simp only [respond] at hr
      simp [hr]
    cases s <;> exact ⟨(Option.some.inj hs).symm, hv⟩
  | addToCache | replaceRoot | enterServer | nextIndex | isSsUp | isUp | exchange | recvIndex |
      createBackupHelper =>
    have hv : v.semaphore = u.semaphore := by
      simp only [respond] at hr
      simp [hr]
    cases s <;> exact ⟨(Option.some.inj hs).symm, hv⟩

/-- A step in which no deletion misses its key keeps the balance. -/
private theorem Balanced.step {st : T → Place} {u v : Shared} {t : T} {o : ThreadOp} {r : o.Res}
    {s' : Place} (h : Balanced st u) (hs : (st t).next ⟨o, r⟩ = some s') (hit : Hits o u)
    (hr : respond o r u v) : Balanced (Function.update st t s') v := by
  by_cases hwait : o = .semWait
  · subst hwait
    obtain ⟨hpos, rfl⟩ := hr
    obtain ⟨hone, hall⟩ | ⟨_, hzero, -⟩ := h
    · rw [hall t] at hs
      cases hs
      refine .inr ⟨t, ?_, Function.update_self .., fun x hx ↦ ?_⟩
      · simp [hone]
      · rw [Function.update_of_ne hx]
        exact hall x
    · omega
  by_cases hpost : o = .semPost
  · subst hpost
    obtain rfl := hr
    obtain ⟨-, hall⟩ | ⟨x, hzero, hx, hothers⟩ := h
    · rw [hall t] at hs
      cases hs
    · obtain rfl : t = x := by
        by_contra hne
        rw [hothers t hne] at hs
        cases hs
      rw [hx] at hs
      cases hs
      refine .inl ⟨by simp [hzero], fun y ↦ ?_⟩
      by_cases hy : y = t
      · rw [hy, Function.update_self]
      · rw [Function.update_of_ne hy]
        exact hothers y hy
  · obtain ⟨rfl, hv⟩ := unchanged hwait hpost hs hit hr
    rw [Function.update_eq_self, Balanced, hv]
    exact h

/-- In every run of any number of threads whose deletions find their keys in the cache, the
value of the semaphore and the threads inside a section are one together. -/
theorem mutual_exclusion_of_hits {tasks : T → List Task} {start w : Shared}
    {log : List (T × ThreadEvent)} {qs : T → ThreadProg Unit}
    (h : ThreadRun Hits tasks start log qs w) : MutualExclusion log w := by
  obtain ⟨hstart, hrun⟩ := h
  obtain ⟨st, hbalanced, hst⟩ := Interleaved.follows hrun (I := Balanced)
    (fun t ↦ follows_stepTasks (tasks t)) (.inl ⟨hstart, fun _ ↦ rfl⟩) (fun _ _ _ _ hs ↦ hs.elim)
    (fun st u v t o r s' hI hs hr ↦ hI.step hs hr.1 hr.2)
  have hwaits : ∀ t, t ∈ insiders log ↔ 0 < (st t).waits := by
    intro t
    rw [← pending_of_stateAfter (hst t).2]
    rfl
  obtain ⟨hone, hall⟩ | ⟨t, hzero, ht, hothers⟩ := hbalanced
  · have hnone : insiders log = ∅ := by
      ext t
      simp [hwaits, hall, Place.waits]
    exact ⟨by simp [hnone], by simp [hnone, hone], by simp [hnone]⟩
  · have honly : insiders log = {t} := by
      ext u
      rw [hwaits, Set.mem_singleton_iff]
      by_cases hu : u = t
      · simp [hu, ht, Place.waits]
      · simp [hu, hothers u hu, Place.waits]
    exact ⟨by simp [honly], by simp [honly, hzero], by simp [honly]⟩

/-! ### Two removals of one file -/

/-- A server that holds `./s/a` has registered. -/
private def oneServer : Shared where
  semaphore := 1
  cache := .initializeCache
  roots := ((Trie.addPathToTrie (lit "./s/a") (createNode (lit "."))).toList)
  storageServerIndex := 1

/-- Remove the file, then look it up again. -/
private def removeThenSearch : List Task :=
  [.remove (lit "rm ./s/a") (lit "./s/a"), .search (lit "./s/a")]

private theorem ThreadRun.step {allowed : ThreadOp → Shared → Prop} {tasks : T → List Task}
    {start u : Shared} {log : List (T × ThreadEvent)} {qs : T → ThreadProg Unit}
    (h : ThreadRun allowed tasks start log qs u) (t : T) {o : ThreadOp} (r : o.Res)
    {k : o.Res → ThreadProg Unit} (v : Shared) (ht : qs t = .perform o k) (ho : allowed o u)
    (hr : respond o r u v) : ThreadRun allowed tasks start (log ++ [(t, ⟨o, r⟩)])
      (Function.update qs t (k r)) v :=
  ⟨h.1, .step h.2 ht ⟨ho, hr⟩⟩

/-- The data at a value of the semaphore and a cache. -/
private def dataAt (semaphore : Nat) (cache : LruCache) : Shared :=
  { oneServer with semaphore := semaphore, cache := cache }

/-- The cache behind the lookup of the file. -/
private def cached : LruCache := LruCache.initializeCache.addToCache (lit "./s/a") 0

/-- The cache behind its deletion. -/
private def emptied : LruCache := ⟨cached.queue, 0⟩

private theorem roots_search (semaphore : Nat) (cache : LruCache) :
    searchInTries (dataAt semaphore cache).roots (lit "./s/a") = some (some 0) := by
  change searchInTries oneServer.roots (lit "./s/a") = some (some 0)
  decide +kernel

private theorem cached_search : cached.searchCache (lit "./s/a") = some 0 := by decide

private theorem emptied_search : emptied.searchCache (lit "./s/a") = none := by decide

/-- Two threads remove the same file. The deletion of the first one finds the key while the second
one is inside the section of its lookup. -/
theorem mutual_exclusion_of_two_removals :
    ∃ log qs w, ThreadRun Hits (fun _ : Bool ↦ removeThenSearch) oneServer log qs w ∧
      (true, (⟨.shiftOut 0, ()⟩ : ThreadEvent)) ∈ log ∧ false ∈ insiders log ∧
      w.semaphore = 0 ∧ MutualExclusion log w := by
  have h₀ : ThreadRun Hits (fun _ : Bool ↦ removeThenSearch) oneServer [] _ oneServer :=
    ⟨rfl, .start⟩
  have h₁ := h₀.step true () (dataAt 0 .initializeCache) rfl trivial ⟨by decide, rfl⟩
  have h₂ := h₁.step true none (dataAt 0 .initializeCache) rfl trivial ⟨rfl, rfl⟩
  have h₃ := h₂.step true (some (0 : Nat)) (dataAt 0 .initializeCache) rfl trivial
    ⟨roots_search _ _, by simp, rfl⟩
  have h₄ := h₃.step true () (dataAt 0 cached) rfl trivial rfl
  have h₅ := h₄.step true () (dataAt 1 cached) rfl trivial rfl
  have h₆ := h₅.step true () (dataAt 1 cached) rfl trivial rfl
  have k₁ := h₆.step false () (dataAt 0 cached) rfl trivial ⟨by decide, rfl⟩
  have h₇ := k₁.step true (some 0) (dataAt 0 cached) rfl rfl ⟨cached_search.symm, rfl⟩
  have h₈ := h₇.step true () (dataAt 0 emptied) rfl trivial ⟨by decide, rfl⟩
  have k₂ := h₈.step false none (dataAt 0 emptied) rfl trivial ⟨emptied_search.symm, rfl⟩
  exact ⟨_, _, _, k₂, by simp, by decide, rfl, mutual_exclusion_of_hits k₂⟩

/-- Two threads remove the same file. Both find it, the deletion of the second one misses the
key and posts, and then both are inside the section of their next lookup. -/
theorem missed_deletion_posts :
    ¬ ∀ (tasks : Bool → List Task) (start w : Shared) (log : List (Bool × ThreadEvent))
      (qs : Bool → ThreadProg Unit), ThreadRun (fun _ _ ↦ True) tasks start log qs w →
      MutualExclusion log w := by
  intro hall
  have h₀ : ThreadRun (fun _ _ ↦ True) (fun _ : Bool ↦ removeThenSearch) oneServer [] _ oneServer :=
    ⟨rfl, .start⟩
  -- The first thread looks the file up, then the second one.
  have h₁ := h₀.step true () (dataAt 0 .initializeCache) rfl trivial ⟨by decide, rfl⟩
  have h₂ := h₁.step true none (dataAt 0 .initializeCache) rfl trivial ⟨rfl, rfl⟩
  have h₃ := h₂.step true (some (0 : Nat)) (dataAt 0 .initializeCache) rfl trivial
    ⟨roots_search _ _, by simp, rfl⟩
  have h₄ := h₃.step true () (dataAt 0 cached) rfl trivial rfl
  have h₅ := h₄.step true () (dataAt 1 cached) rfl trivial rfl
  have h₆ := h₅.step true () (dataAt 1 cached) rfl trivial rfl
  have k₁ := h₆.step false () (dataAt 0 cached) rfl trivial ⟨by decide, rfl⟩
  have k₂ := k₁.step false (some 0) (dataAt 0 cached) rfl trivial ⟨cached_search.symm, rfl⟩
  have k₃ := k₂.step false (0 : Nat) (dataAt 0 cached) rfl trivial ⟨by decide, rfl⟩
  have k₄ := k₃.step false () (dataAt 0 cached) rfl trivial ⟨by decide, rfl⟩
  have k₅ := k₄.step false () (dataAt 1 cached) rfl trivial rfl
  have k₆ := k₅.step false (0 : Nat) (dataAt 1 cached) rfl trivial ⟨by decide, rfl⟩
  have k₇ := k₆.step false () (dataAt 1 cached) rfl trivial rfl
  -- Both delete.
  have h₇ := k₇.step true (some 0) (dataAt 1 cached) rfl trivial ⟨cached_search.symm, rfl⟩
  have h₈ := h₇.step true () (dataAt 1 emptied) rfl trivial ⟨by decide, rfl⟩
  have k₈ := h₈.step false none (dataAt 1 emptied) rfl trivial ⟨emptied_search.symm, rfl⟩
  have k₉ := k₈.step false () (dataAt 2 emptied) rfl trivial rfl
  -- The server is found down, so both go on to the next lookup.
  have h₉ := k₉.step true false (dataAt 2 emptied) rfl trivial rfl
  have h₁₀ := h₉.step true () (dataAt 1 emptied) rfl trivial ⟨by decide, rfl⟩
  have k₁₀ := h₁₀.step false false (dataAt 1 emptied) rfl trivial rfl
  have k₁₁ := k₁₀.step false () (dataAt 0 emptied) rfl trivial ⟨by decide, rfl⟩
  cases (hall _ _ _ _ _ k₁₁).exclusive true (by decide) false (by decide)

end NetworkFileSystem.Naming.Semaphore
