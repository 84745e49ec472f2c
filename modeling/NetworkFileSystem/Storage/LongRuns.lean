import NetworkFileSystem.Storage.SameLock

/-!
# The table of locks over long runs

`storage_server.c:21–53,101–108,326–333,469–476`, `lock.c:6–13`. Requests come one after
another. Nothing leaves `conc_array`, and no handler looks whether there is room for a new
entry. An entry keeps a pointer to the path: the handlers of `cat`, `rm` and the asynchronous
write pass a copy on the heap that is never freed, and `write_file` passes a part of the local
array of its caller, which is gone when the request is over.
-/

namespace NetworkFileSystem.Storage

open Base Protocol Lock Prog

/-- An entry of `conc_array`. In `frame` is the number of the request in whose local array the
path lies, if it does not lie on the heap. -/
structure TableEntry where
  lock : LockStruct
  frame : Option Nat

/-- The path as it can be read now. -/
def TableEntry.path (e : TableEntry) : Text := e.lock.pathToFile

/-- `write_file` makes its entry with a path in the array `buffer` of `process_client`. -/
def Request.inFrame : Request → Bool
  | .writeSync _ => true
  | _ => false

/-- How `conc_array[0..num_of_requests-1]` answers request number `k`. A new entry is made
whether or not the array has room for it. -/
def entriesRespond (k : Nat) (r : Request) :
    (o : SsOp) → o.Res → List TableEntry → List TableEntry → Prop
  | .lookup path, i, t, t' => i = t.findIdx? (·.path = path) ∧ t' = t
  | .create path, i, t, t' =>
    i = t.length ∧ t' = t ++ [⟨initLock path, if r.inFrame then some k else none⟩]
  | .acquire m i, _, t, t' =>
    ∃ e l', t[i]? = some e ∧ Lock.acquire m e.lock = some l' ∧ t' = t.set i { e with lock := l' }
  | .release m i, _, t, t' =>
    ∃ e, t[i]? = some e ∧ t' = t.set i { e with lock := (Lock.release m e.lock).1 }
  | _, _, t, t' => t' = t

/-- The index with which an operation goes to `conc_array`. -/
def usedIndex : SsEvent → List Nat
  | ⟨.create _, i⟩ => [i]
  | ⟨.acquire _ i, _⟩ | ⟨.release _ i, _⟩ => [i]
  | _ => []

/-- A storage server that takes requests one after another: how many have begun, what is left
of the last of them, the entries, and the indices that were used. -/
@[ext]
structure Server where
  begun : Nat
  program : SsProg Unit
  table : List TableEntry
  used : List Nat

/-- No request has come. -/
def Server.start : Server := ⟨0, .ret (), [], []⟩

/-- Request number `k` is over. -/
def Server.Over (s : Server) (k : Nat) : Prop :=
  k + 1 < s.begun ∨ k + 1 = s.begun ∧ s.program = .ret ()

/-- The server goes on. What lay in the local array of a request that is over may be anything. -/
inductive Server.Step (requests : List Request) : Server → Server → Prop where
  | begin {s : Server} {r : Request} :
      s.program = .ret () → requests[s.begun]? = some r →
      Step requests s { s with begun := s.begun + 1, program := r.program }
  | perform {s : Server} {k : Nat} {r : Request} {o : SsOp} {x : o.Res}
      {f : o.Res → SsProg Unit} {table : List TableEntry} :
      s.begun = k + 1 → requests[k]? = some r → s.program = .perform o f →
      entriesRespond k r o x s.table table →
      Step requests s
        { s with program := f x, table := table, used := s.used ++ usedIndex ⟨o, x⟩ }
  | overwrite {s : Server} {i k : Nat} {e : TableEntry} {t : Text} :
      s.table[i]? = some e → e.frame = some k → s.Over k →
      Step requests s
        { s with table := s.table.set i { e with lock := { e.lock with pathToFile := t } } }

/-- The runs of a server. -/
def Server.Reached (requests : List Request) : Server → Prop :=
  Reachable (· = Server.start) (Server.Step requests)

/-- The paths that are stored. -/
def Server.paths (s : Server) : List Text := s.table.map TableEntry.path

/-- The table is in order. -/
structure Server.Sound (s : Server) : Prop where
  /-- `num_of_requests` is the length of the table. -/
  bound : s.table.length ≤ maxReq
  indices : ∀ i ∈ s.used, i < maxReq
  distinct : s.paths.Nodup

/-- The different paths that requests name. -/
def pathsOf (requests : List Request) : Finset Text := (requests.filterMap Request.path).toFinset

/-- A synchronous write names a path only after a request of another kind has. -/
def Steady (requests : List Request) : Prop :=
  ∀ (k : Nat) (r : Request) (path : Text),
    requests[k]? = some r → r.inFrame = true → r.path = some path →
    ∃ (j : Nat) (r' : Request), j < k ∧ requests[j]? = some r' ∧ r'.inFrame = false ∧
      r'.path = some path

/-! ### Stages of a request -/

/-- How far a request has come with its lock. -/
inductive Stage where
  | searching
  | missing
  | found (i : Nat)
  deriving DecidableEq

namespace Stage

/-- A request for `path` looks for an entry, makes one if there is none, and uses this one only. -/
def next (path : Option Text) (st : Stage) : SsEvent → Option Stage
  | ⟨.lookup p, x⟩ =>
    if st = searching ∧ path = some p then
      some (match x with
        | some i => found i
        | none => missing)
    else none
  | ⟨.create p, i⟩ => if st = missing ∧ path = some p then some (found i) else none
  | ⟨.acquire _ i, _⟩ | ⟨.release _ i, _⟩ => if st = found i then some st else none
  | _ => some st

/-- The request has an entry. -/
def Done (st : Stage) : Prop := ∃ i, st = found i

end Stage

/-- A request that is at stage `st`. -/
private abbrev Keeping {α : Type} (path : Option Text) (Q : Stage → Prop) (st : Stage)
    (p : SsProg α) : Prop :=
  Follows (Stage.next path) (fun _ ↦ Q) st p

section Keeping

variable {α β : Type} {path : Option Text} {i : Nat}

private theorem follows_plain {p : SsProg β} (hp : p.Only (·.isPlain = true)) (st : Stage) :
    Keeping path (· = st) st p := by
  refine hp.follows (fun o x ho ↦ ?_)
  cases o with
  | lookup | create | acquire | release => cases ho
  | _ => rfl

private theorem keeping_plain {p : SsProg β} (hp : p.Only (·.isPlain = true)) {st : Stage}
    {f : β → SsProg α} (h : ∀ b, Keeping path Stage.Done st (f b)) :
    Keeping path Stage.Done st (p >>= f) :=
  follows_bind (follows_plain hp st) (fun b _ hst ↦ hst ▸ h b)

/-- The lookup decides whether an entry is made. -/
private theorem keeping_lockIndex {p : Text} {f : Nat → SsProg α}
    (h : ∀ i, Keeping (some p) Stage.Done (.found i) (f i)) :
    Keeping (some p) Stage.Done .searching (lockIndex p >>= f) := by
  have hindex : Follows (Stage.next (some p)) (fun i st ↦ st = .found i) .searching
      (lockIndex p) := by
    refine follows_call (fun x ↦ ?_)
    cases x with
    | none => exact ⟨_, if_pos ⟨rfl, rfl⟩, fun i ↦ ⟨_, if_pos ⟨rfl, rfl⟩, rfl⟩⟩
    | some i => exact ⟨_, if_pos ⟨rfl, rfl⟩, rfl⟩
  exact follows_bind hindex (fun i st hst ↦ hst ▸ h i)

private theorem keeping_pathLock {x : Option Text} {f : Text → Nat → SsProg α}
    (h : ∀ p i, Keeping (some p) Stage.Done (.found i) (f p i)) :
    Keeping x Stage.Done .searching (Prog.ofOption x >>= fun p ↦ lockIndex p >>= f p) := by
  cases x with
  | none => trivial
  | some p => exact keeping_lockIndex (h p)

end Keeping

/-- Every request makes an entry only if it has found none, and uses the one for its path. -/
theorem follows_stage (r : Request) :
    Follows (Stage.next r.path) (fun _ ↦ Stage.Done) .searching r.program := by
  cases r with
  | writeSync buffer =>
    have hfile : Keeping (tokens bar buffer)[1]? Stage.Done .searching (writeFile buffer) := by
      refine keeping_pathLock (fun path i ↦ follows_step _ (fun _ ↦ if_pos rfl) (fun _ ↦ ?_))
      refine follows_step _ (fun _ ↦ rfl) ?_
      rintro (_ | _)
      · exact ⟨i, rfl⟩
      · refine follows_ofOption (fun data _ ↦ follows_step _ (fun _ ↦ rfl) (fun _ ↦ ?_))
        refine follows_step _ (fun _ ↦ if_pos rfl) (fun _ ↦ ?_)
        exact follows_step _ (fun _ ↦ rfl) (fun _ ↦ ⟨i, rfl⟩)
    refine follows_bind hfile (fun buffer2 st hst ↦ ?_)
    obtain ⟨i, rfl⟩ := hst
    refine follows_step _ (fun _ ↦ rfl) (fun _ ↦ ?_)
    exact (follows_plain (plain_sendAckToNm buffer) (.found i)).mono (fun _ _ hst ↦ ⟨i, hst⟩)
  | writeAsync buffer =>
    refine follows_call (fun _ ↦ ⟨_, rfl, keeping_pathLock (fun path i ↦ ?_)⟩)
    refine follows_step _ (fun _ ↦ if_pos rfl) (fun _ ↦ follows_step _ (fun _ ↦ rfl) ?_)
    rintro (_ | _)
    · exact follows_step _ (fun _ ↦ rfl) (fun _ ↦ ⟨i, rfl⟩)
    · refine follows_ofOption (fun ip _ ↦ follows_ofOption (fun port _ ↦ ?_))
      refine follows_ofOption (fun data _ ↦ follows_step _ (fun _ ↦ rfl) (fun array ↦ ?_))
      refine follows_ofOption (fun blocks _ ↦ keeping_plain (plain_printBlocks blocks) (fun _ ↦ ?_))
      refine follows_step _ (fun _ ↦ if_pos rfl) (fun _ ↦ ?_)
      refine keeping_plain (plain_sendAckToNm _) (fun _ ↦ ?_)
      exact follows_step _ (fun _ ↦ rfl) (fun _ ↦ ⟨i, rfl⟩)
  | cat path =>
    refine keeping_lockIndex (fun i ↦ follows_step _ (fun _ ↦ if_pos rfl) (fun _ ↦ ?_))
    refine keeping_plain (plain_readFile path) (fun _ ↦ ?_)
    exact follows_step _ (fun _ ↦ if_pos rfl) (fun _ ↦ ⟨i, rfl⟩)
  | rm path =>
    refine keeping_lockIndex (fun i ↦ follows_step _ (fun _ ↦ if_pos rfl) (fun _ ↦ ?_))
    refine follows_step _ (fun _ ↦ rfl) (fun removed ↦ ?_)
    refine follows_step _ (fun _ ↦ if_pos rfl) (fun _ ↦ ?_)
    exact follows_step _ (fun _ ↦ rfl) (fun _ ↦ ⟨i, rfl⟩)

/-! ### What a run keeps -/

/-- What holds of the table whatever the request in progress is about to do. -/
structure Server.Ordered (requests : List Request) (s : Server) : Prop where
  heap : ∀ e ∈ s.table, e.frame = none
  distinct : s.paths.Nodup
  named : ∀ p ∈ s.paths, p ∈ pathsOf (requests.take s.begun)
  used : ∀ i ∈ s.used, i < s.paths.length
  /-- The requests before the last one that has begun have their entries. -/
  served : ∀ (j : Nat) (r : Request) (p : Text), j + 1 < s.begun → requests[j]? = some r →
    r.path = some p → p ∈ s.paths

/-- What a request at this stage may rely on. -/
def Stage.Reliable (path : Option Text) (paths : List Text) : Stage → Prop
  | .searching => True
  | .missing => ∀ p, path = some p → p ∉ paths
  | .found i => i < paths.length ∧ ∀ p, path = some p → p ∈ paths

/-- The invariant of a server. -/
structure Server.Kept (requests : List Request) (s : Server) : Prop where
  ordered : s.Ordered requests
  current : s = .start ∨ ∃ k r st, s.begun = k + 1 ∧ requests[k]? = some r ∧
    Follows (Stage.next r.path) (fun _ ↦ Stage.Done) st s.program ∧ st.Reliable r.path s.paths

section Kept

variable {requests : List Request} {s t : Server}

theorem steady_take_of_succ {n : Nat} (h : Steady (requests.take (n + 1))) :
    Steady (requests.take n) := by
  intro k r path hk hframe hpath
  rw [List.getElem?_take] at hk
  split at hk
  · next hlt =>
    obtain ⟨j, r', hj, hr', hrest⟩ := h k r path
      (by rw [List.getElem?_take, if_pos (by omega), hk]) hframe hpath
    rw [List.getElem?_take, if_pos (by omega)] at hr'
    exact ⟨j, r', hj, by rw [List.getElem?_take, if_pos (by omega), hr'], hrest⟩
  · cases hk

theorem mem_pathsOf_take {n k : Nat} {r : Request} {p : Text} (hk : k < n)
    (hr : requests[k]? = some r) (hp : r.path = some p) : p ∈ pathsOf (requests.take n) := by
  have hmem : r ∈ requests.take n := by
    refine List.mem_of_getElem? (i := k) ?_
    rw [List.getElem?_take, if_pos hk, hr]
  rw [pathsOf, List.mem_toFinset, List.mem_filterMap]
  exact ⟨r, hmem, hp⟩

theorem pathsOf_take_subset {m n : Nat} (h : m ≤ n) :
    pathsOf (requests.take m) ⊆ pathsOf (requests.take n) := by
  intro p hp
  rw [pathsOf, List.mem_toFinset, List.mem_filterMap] at hp ⊢
  obtain ⟨r, hr, hpath⟩ := hp
  exact ⟨r, (List.take_subset_take_left requests h) hr, hpath⟩

/-- While the paths stay, so does the rest. -/
theorem Server.Ordered.same (h : s.Ordered requests) (hbegun : t.begun = s.begun)
    (hpaths : t.paths = s.paths) (hheap : ∀ e ∈ t.table, e.frame = none)
    (hused : ∀ i ∈ t.used, i ∈ s.used ∨ i < s.paths.length) : t.Ordered requests := by
  refine ⟨hheap, hpaths ▸ h.distinct, ?_, fun i hi ↦ ?_, ?_⟩
  · rw [hpaths, hbegun]
    exact h.named
  · rw [hpaths]
    exact (hused i hi).elim (h.used i) id
  · rw [hpaths, hbegun]
    exact h.served

/-- A new entry for a path that has none, with the path on the heap. -/
theorem Server.Ordered.create (h : s.Ordered requests) {p : Text}
    (hp : p ∈ pathsOf (requests.take s.begun)) (hnew : p ∉ s.paths) (hbegun : t.begun = s.begun)
    (htable : t.table = s.table ++ [⟨initLock p, none⟩])
    (hused : t.used = s.used ++ [s.table.length]) : t.Ordered requests := by
  have hpaths : t.paths = s.paths ++ [p] := by
    rw [Server.paths, htable, List.map_append]
    rfl
  have hlength : s.paths.length = s.table.length := List.length_map ..
  refine ⟨fun e he ↦ ?_, ?_, fun q hq ↦ ?_, fun i hi ↦ ?_, fun j r q hj hr hq ↦ ?_⟩
  · rw [htable] at he
    obtain he | he := List.mem_append.mp he
    · exact h.heap e he
    · rw [List.mem_singleton.mp he]
  · rw [hpaths, ← List.concat_eq_append]
    exact h.distinct.concat hnew
  · rw [hpaths] at hq
    rw [hbegun]
    obtain hq | hq := List.mem_append.mp hq
    · exact h.named q hq
    · rw [List.mem_singleton.mp hq]
      exact hp
  · rw [hused] at hi
    rw [hpaths, List.length_append, List.length_singleton]
    obtain hi | hi := List.mem_append.mp hi
    · exact Nat.lt_succ_of_lt (h.used i hi)
    · rw [List.mem_singleton.mp hi, hlength]
      exact Nat.lt_succ_self _
  · rw [hbegun] at hj
    rw [hpaths]
    exact List.mem_append_left _ (h.served j r q hj hr hq)

/-- An entry keeps its frame while its lock changes. -/
theorem heap_set {table : List TableEntry} (h : ∀ e ∈ table, e.frame = none) {i : Nat}
    {e : TableEntry} (he : table[i]? = some e) (l : LockStruct) :
    ∀ d ∈ table.set i { e with lock := l }, d.frame = none := by
  intro d hd
  obtain hd | rfl := List.mem_or_eq_of_mem_set hd
  · exact h d hd
  · exact h e (List.mem_of_getElem? he)

/-- The next request begins when the last one has its entry. -/
theorem Server.Kept.begin (h : s.Kept requests) (hret : s.program = .ret ()) {r : Request}
    (hr : requests[s.begun]? = some r) :
    Server.Kept requests { s with begun := s.begun + 1, program := r.program } := by
  refine ⟨⟨h.ordered.heap, h.ordered.distinct, fun p hp ↦ ?_, h.ordered.used, ?_⟩,
    .inr ⟨s.begun, r, .searching, rfl, hr, follows_stage r, trivial⟩⟩
  · exact pathsOf_take_subset (Nat.le_succ _) (h.ordered.named p hp)
  · intro j r' p hj hr' hp
    change j + 1 < s.begun + 1 at hj
    rcases Nat.lt_or_ge (j + 1) s.begun with hlt | hge
    · exact h.ordered.served j r' p hlt hr' hp
    · obtain rfl | ⟨k, r₀, st, hk, hr₀, hfollows, hst⟩ := h.current
      · exact absurd hj (by change ¬ j + 1 < 0 + 1; omega)
      · obtain rfl : j = k := by omega
        obtain rfl := Option.some.inj (hr₀.symm.trans hr')
        rw [hret] at hfollows
        obtain ⟨i, rfl⟩ := hfollows
        exact hst.2 p hp

theorem findIdx?_path_eq_none {table : List TableEntry} {p : Text}
    (h : table.findIdx? (·.path = p) = none) : p ∉ table.map TableEntry.path := by
  intro hp
  obtain ⟨e, he, hpath⟩ := List.mem_map.mp hp
  exact absurd (List.findIdx?_eq_none_iff.mp h e he) (by simp [hpath])

theorem findIdx?_path_eq_some {table : List TableEntry} {p : Text} {i : Nat}
    (h : table.findIdx? (·.path = p) = some i) :
    i < table.length ∧ p ∈ table.map TableEntry.path := by
  obtain ⟨hlt, hpath, -⟩ := List.findIdx?_eq_some_iff_getElem.mp h
  exact ⟨hlt, List.mem_map.mpr ⟨table[i], List.getElem_mem hlt, of_decide_eq_true hpath⟩⟩

/-- What the lookup says of the path is so. -/
theorem Stage.reliable_lookup {table : List TableEntry} {p : Text} {x : Option Nat}
    (hx : x = table.findIdx? (·.path = p)) :
    (match x with
      | some i => Stage.found i
      | none => Stage.missing).Reliable (some p) (table.map TableEntry.path) := by
  cases x with
  | none =>
    rintro q ⟨⟩
    exact findIdx?_path_eq_none hx.symm
  | some i =>
    obtain ⟨hlt, hmem⟩ := findIdx?_path_eq_some hx.symm
    refine ⟨by rwa [List.length_map], ?_⟩
    rintro q ⟨⟩
    exact hmem

/-- A request whose path lies in a local array has found its entry. -/
theorem Server.Ordered.heap_of_missing (h : s.Ordered requests)
    (hsteady : Steady (requests.take s.begun)) {k : Nat} {r : Request} {p : Text}
    (hbegun : s.begun = k + 1) (hr : requests[k]? = some r) (hpath : r.path = some p)
    (hmissing : p ∉ s.paths) : r.inFrame = false := by
  rw [← Bool.not_eq_true]
  intro hframe
  obtain ⟨j, r', hj, hr', -, hpath'⟩ := hsteady k r p
    (by rw [List.getElem?_take, if_pos (by omega), hr]) hframe hpath
  rw [List.getElem?_take, if_pos (by omega)] at hr'
  exact hmissing (h.served j r' p (by omega) hr' hpath')

/-- An operation of the request in progress. -/
theorem Server.Kept.perform (h : s.Kept requests) (hsteady : Steady (requests.take s.begun))
    {k : Nat} {r : Request} {o : SsOp} {x : o.Res} {f : o.Res → SsProg Unit}
    {table : List TableEntry} (hbegun : s.begun = k + 1) (hr : requests[k]? = some r)
    (hprog : s.program = .perform o f) (hx : entriesRespond k r o x s.table table) :
    Server.Kept requests
      { s with program := f x, table := table, used := s.used ++ usedIndex ⟨o, x⟩ } := by
  obtain rfl | ⟨k', r', st, hk, hr', hfollows, hst⟩ := h.current
  · cases hprog
  obtain rfl : k' = k := by omega
  obtain rfl := Option.some.inj (hr'.symm.trans hr)
  rw [hprog] at hfollows
  obtain ⟨st', hnext, hfollows⟩ := hfollows x
  have hord := h.ordered
  -- It is enough to know the paths, the frames, the index used and the next stage.
  have hsame : table.map TableEntry.path = s.paths → (∀ e ∈ table, e.frame = none) →
      (∀ i ∈ usedIndex ⟨o, x⟩, i < s.paths.length) → st'.Reliable r'.path s.paths →
      Server.Kept requests
        { s with program := f x, table := table, used := s.used ++ usedIndex ⟨o, x⟩ } := by
    intro hpaths hheap hused hst'
    refine ⟨hord.same rfl hpaths hheap (fun i hi ↦ ?_), .inr ⟨k', r', st', hk, hr, hfollows, ?_⟩⟩
    · exact (List.mem_append.mp hi).imp_right (hused i)
    · change st'.Reliable r'.path (table.map TableEntry.path)
      rw [hpaths]
      exact hst'
  cases o with
  | lookup p =>
    simp only [Stage.next, Option.ite_none_right_eq_some, Option.some.injEq] at hnext
    obtain ⟨⟨rfl, hpath⟩, rfl⟩ := hnext
    obtain ⟨hfound, rfl⟩ := hx
    refine hsame rfl hord.heap (fun i hi ↦ absurd hi List.not_mem_nil) ?_
    rw [hpath]
    cases x with
    | none | some i => exact Stage.reliable_lookup hfound
  | create p =>
    simp only [Stage.next, Option.ite_none_right_eq_some, Option.some.injEq] at hnext
    obtain ⟨⟨rfl, hpath⟩, rfl⟩ := hnext
    obtain ⟨rfl, rfl⟩ := hx
    have hmissing := hst p hpath
    have hframe := hord.heap_of_missing hsteady hbegun hr hpath hmissing
    have hentry : (if r'.inFrame then some k' else none) = none := by
      rw [hframe]
      rfl
    have hnamed : p ∈ pathsOf (requests.take s.begun) := mem_pathsOf_take (by omega) hr hpath
    refine ⟨hord.create hnamed hmissing rfl (by rw [hentry]) rfl,
      .inr ⟨k', r', _, hk, hr, hfollows, ?_, fun q hq ↦ ?_⟩⟩
    · rw [Server.paths, List.length_map, List.length_append]
      exact Nat.lt_succ_self _
    · obtain rfl := Option.some.inj (hpath.symm.trans hq)
      rw [Server.paths, List.map_append]
      exact List.mem_append_right _ (List.mem_singleton_self p)
  | acquire m i =>
    simp only [Stage.next, Option.ite_none_right_eq_some, Option.some.injEq] at hnext
    obtain ⟨rfl, rfl⟩ := hnext
    obtain ⟨e, l, he, hl, rfl⟩ := hx
    refine hsame (map_set_of_eq he (pathToFile_acquire hl)) (heap_set hord.heap he l) ?_ hst
    intro j hj
    obtain rfl := List.mem_singleton.mp hj
    exact hst.1
  | release m i =>
    simp only [Stage.next, Option.ite_none_right_eq_some, Option.some.injEq] at hnext
    obtain ⟨rfl, rfl⟩ := hnext
    obtain ⟨e, he, rfl⟩ := hx
    refine hsame (map_set_of_eq he (by cases m <;> rfl)) (heap_set hord.heap he _) ?_ hst
    intro j hj
    obtain rfl := List.mem_singleton.mp hj
    exact hst.1
  | _ =>
    obtain rfl : table = s.table := hx
    obtain rfl : st = st' := Option.some.inj hnext
    exact hsame rfl hord.heap (fun i hi ↦ absurd hi List.not_mem_nil) hst

/-- The invariant of the runs whose requests are steady. -/
theorem Server.Reached.kept (h : Server.Reached requests s)
    (hsteady : Steady (requests.take s.begun)) : s.Kept requests := by
  have hkept : Steady (requests.take s.begun) → s.Kept requests := by
    refine h.invariant (I := fun s ↦ Steady (requests.take s.begun) → s.Kept requests) ?_ ?_
    · rintro s rfl -
      refine ⟨⟨?_, List.nodup_nil, ?_, ?_, ?_⟩, .inl rfl⟩
      · exact fun e he ↦ absurd he List.not_mem_nil
      · exact fun p hp ↦ absurd hp List.not_mem_nil
      · exact fun i hi ↦ absurd hi List.not_mem_nil
      · exact fun j r p hj ↦ absurd hj (Nat.not_lt_zero _)
    · intro s t ih hstep hsteady
      cases hstep with
      | begin hret hr => exact (ih (steady_take_of_succ hsteady)).begin hret hr
      | perform hbegun hr hprog hx => exact (ih hsteady).perform hsteady hbegun hr hprog hx
      | overwrite he hframe _ =>
        have hheap := (ih hsteady).ordered.heap _ (List.mem_of_getElem? he)
        rw [hheap] at hframe
        cases hframe
  exact hkept hsteady

/-- Where all requests that have begun are over, their paths are those of the table. -/
theorem Server.Kept.card_paths (h : s.Kept requests) (hret : s.program = .ret ()) :
    s.table.length = (pathsOf (requests.take s.begun)).card := by
  have hset : s.paths.toFinset = pathsOf (requests.take s.begun) := by
    ext p
    rw [List.mem_toFinset]
    refine ⟨h.ordered.named p, fun hp ↦ ?_⟩
    rw [pathsOf, List.mem_toFinset, List.mem_filterMap] at hp
    obtain ⟨r, hr, hpath⟩ := hp
    obtain ⟨j, hj⟩ := List.mem_iff_getElem?.mp hr
    rw [List.getElem?_take] at hj
    split at hj
    · next hlt =>
      obtain hs | ⟨k, r₀, st, hk, hr₀, hfollows, hst⟩ := h.current
      · rw [hs] at hlt
        exact absurd hlt (Nat.not_lt_zero _)
      · rcases Nat.lt_or_ge (j + 1) s.begun with hbefore | hlast
        · exact h.ordered.served j r p hbefore hj hpath
        · obtain rfl : j = k := by omega
          obtain rfl := Option.some.inj (hr₀.symm.trans hj)
          rw [hret] at hfollows
          obtain ⟨i, rfl⟩ := hfollows
          exact hst.2 p hpath
    · cases hj
  rw [← hset, List.toFinset_card_of_nodup h.ordered.distinct, Server.paths, List.length_map]

/-- In every state of every run of steady requests that name at most `MAX_REQ` different paths
the table is in order; when no request is in progress, only then. -/
theorem lock_table_sound_iff {requests : List Request} {s : Server}
    (hs : Server.Reached requests s) (hsteady : Steady (requests.take s.begun)) :
    ((pathsOf (requests.take s.begun)).card ≤ maxReq → s.Sound) ∧
      (s.program = .ret () → (s.Sound ↔ (pathsOf (requests.take s.begun)).card ≤ maxReq)) := by
  have hkept := hs.kept hsteady
  have hlength : s.table.length = s.paths.length := (List.length_map ..).symm
  have hsound : (pathsOf (requests.take s.begun)).card ≤ maxReq → s.Sound := by
    intro hcard
    have hle : s.paths.length ≤ (pathsOf (requests.take s.begun)).card := by
      rw [← List.toFinset_card_of_nodup hkept.ordered.distinct]
      exact Finset.card_le_card (fun p hp ↦ hkept.ordered.named p (List.mem_toFinset.mp hp))
    refine ⟨by omega, fun i hi ↦ ?_, hkept.ordered.distinct⟩
    have hi := hkept.ordered.used i hi
    omega
  refine ⟨hsound, fun hret ↦ ⟨fun h ↦ ?_, hsound⟩⟩
  rw [← hkept.card_paths hret]
  exact h.bound

end Kept

/-! ### Runs that fill the table -/

/-- A server that has served `cat` for different paths. -/
def Server.afterCats (ps : List Text) : Server :=
  ⟨ps.length, .ret (), ps.map (fun p ↦ ⟨initLock p, none⟩),
    (List.range ps.length).flatMap (fun i ↦ [i, i, i])⟩

theorem Server.paths_afterCats (ps : List Text) : (Server.afterCats ps).paths = ps := by
  rw [paths, afterCats, List.map_map]
  exact List.map_id ps

/-- One more `cat`, for a path without an entry. -/
theorem Server.Reached.cat {requests : List Request} {ps : List Text} {p : Text}
    (h : Reached requests (afterCats ps)) (hr : requests[ps.length]? = some (.cat p))
    (hp : p ∉ ps) : Reached requests (afterCats (ps ++ [p])) := by
  have hnone : (afterCats ps).table.findIdx? (·.path = p) = none := by
    rw [List.findIdx?_eq_none_iff]
    intro e he
    have hmem : e.path ∈ (afterCats ps).paths := List.mem_map_of_mem he
    rw [paths_afterCats] at hmem
    exact decide_eq_false (fun heq ↦ hp (heq ▸ hmem))
  have hlength : ps.length = (afterCats ps).table.length := (List.length_map ..).symm
  have h₁ := h.next (.begin rfl hr)
  have h₂ := h₁.next (.perform (o := .lookup p) (x := none) rfl hr rfl ⟨hnone.symm, rfl⟩)
  have h₃ := h₂.next (.perform (o := .create p) (x := ps.length) rfl hr rfl ⟨hlength, rfl⟩)
  have h₄ := h₃.next (.perform (o := .acquire .read ps.length) (x := ()) rfl hr rfl
    ⟨⟨initLock p, none⟩, _, by rw [hlength]; exact List.getElem?_concat_length, rfl, rfl⟩)
  have h₅ := h₄.next (.perform (o := .openRead p) (x := some []) rfl hr rfl rfl)
  have h₆ := h₅.next (.perform (o := .release .read ps.length) (x := ()) rfl hr rfl
    ⟨_, List.getElem?_set_self (by simp [hlength]), rfl⟩)
  suffices hend : ∃ s, Reached requests s ∧ s = afterCats (ps ++ [p]) by
    obtain ⟨_, hs, rfl⟩ := hend
    exact hs
  refine ⟨_, h₆, Server.ext ?_ rfl ?_ ?_⟩
  · change ps.length + 1 = (ps ++ [p]).length
    rw [List.length_append, List.length_singleton]
  · change ((ps.map _ ++ [_]).set ps.length _).set ps.length _ = (ps ++ [p]).map _
    rw [List.set_set, List.map_append, List.set_append_right _ _ (by simp)]
    simp [Lock.release, releaseReadLock, initLock]
  · change (((((_ ++ []) ++ [ps.length]) ++ [ps.length]) ++ []) ++ [ps.length]) = _
    simp [afterCats, List.range_succ]

/-- Requests for different paths fill the table, however many there are. -/
theorem Server.reached_afterCats {ps : List Text} (hps : ps.Nodup) :
    Reached (ps.map .cat) (afterCats ps) := by
  have hall : ∀ n, n ≤ ps.length → Reached (ps.map .cat) (afterCats (ps.take n)) := by
    intro n
    induction n with
    | zero =>
      intro _
      rw [List.take_zero]
      exact .start rfl
    | succ n ih =>
      intro hn
      have hlt : n < ps.length := hn
      have htake : ps.take (n + 1) = ps.take n ++ [ps[n]] := List.take_concat_get' ps n hlt ▸ rfl
      have hlen : (ps.take n).length = n := List.length_take_of_le hlt.le
      rw [htake]
      refine (ih hlt.le).cat ?_ ?_
      · rw [hlen, List.getElem?_map, List.getElem?_eq_getElem hlt, Option.map_some]
      · intro hmem
        have hnodup : (ps.take n ++ [ps[n]]).Nodup := htake ▸ hps.sublist (List.take_sublist _ _)
        exact (List.nodup_append.mp hnodup).2.2 _ hmem _ (List.mem_singleton_self _) rfl
  have hwhole := hall ps.length (Nat.le_refl _)
  rwa [List.take_length] at hwhole

private theorem nodup_numbered (n : Nat) :
    ((List.range n).map (fun i ↦ lit "./s/" ++ decimal i)).Nodup := by
  refine List.Nodup.map ?_ List.nodup_range
  intro i j hij
  rw [← digitsValue_decimal i, ← digitsValue_decimal j, List.append_cancel_left hij]

/-- More than `MAX_REQ` different paths are entered behind the end of `conc_array`. The path of
an entry that a synchronous write has made can change afterwards, so that a second entry for it
is made; here the memory holds the old path again after that. -/
theorem lock_table_goes_wrong :
    (∃ s, Server.Reached ((List.range (maxReq + 1)).map (fun i ↦ .cat (lit "./s/" ++ decimal i))) s ∧
      maxReq < s.table.length ∧ maxReq ∈ s.used) ∧
    ∃ s, Server.Reached [.writeSync (lit "WRITE_SYNC|./a|x"), .cat (lit "./a")] s ∧
      ¬ s.paths.Nodup := by
  constructor
  · have hrun := Server.reached_afterCats (nodup_numbered (maxReq + 1))
    rw [List.map_map] at hrun
    refine ⟨_, hrun, ?_, ?_⟩
    · rw [Server.afterCats, List.length_map, List.length_map, List.length_range]
      exact Nat.lt_succ_self _
    · rw [Server.afterCats, List.length_map, List.length_range, List.mem_flatMap]
      exact ⟨maxReq, List.mem_range.mpr (Nat.lt_succ_self _), List.mem_cons_self⟩
  · have h₀ : Server.Reached [.writeSync (lit "WRITE_SYNC|./a|x"), .cat (lit "./a")] .start :=
      .start rfl
    have h₁ := h₀.next (.begin rfl rfl)
    have h₂ := h₁.next (.perform (o := .lookup (lit "./a")) (x := none) rfl rfl rfl ⟨rfl, rfl⟩)
    have h₃ := h₂.next (.perform (o := .create (lit "./a")) (x := 0) rfl rfl rfl ⟨rfl, rfl⟩)
    have h₄ := h₃.next (.perform (o := .acquire .write 0) (x := ()) rfl rfl rfl
      ⟨_, _, rfl, rfl, rfl⟩)
    have h₅ := h₄.next (.perform (o := .fopen (lit "./a")) (x := true) rfl rfl rfl rfl)
    have h₆ := h₅.next (.perform (o := .fprintf (lit "x\n")) (x := ()) rfl rfl rfl rfl)
    have h₇ := h₆.next (.perform (o := .release .write 0) (x := ()) rfl rfl rfl ⟨_, rfl, rfl⟩)
    have h₈ := h₇.next (.perform (o := .fclose) (x := ()) rfl rfl rfl rfl)
    have h₉ := h₈.next (.perform (o := .send (lit "Data written successfully\n")) (x := true)
      rfl rfl rfl rfl)
    have hwritten := h₉.next (.perform (o := .notify (lit "WRITE_SYNC|./a|x")) (x := true)
      rfl rfl rfl rfl)
    have hlost := hwritten.next (.overwrite (i := 0) (k := 0) (t := []) rfl rfl (.inr ⟨rfl, rfl⟩))
    have hcat := hlost.next (.begin rfl rfl)
    have hnone := hcat.next (.perform (o := .lookup (lit "./a")) (x := none) rfl rfl rfl
      ⟨rfl, rfl⟩)
    have hsecond := hnone.next (.perform (o := .create (lit "./a")) (x := 1) rfl rfl rfl ⟨rfl, rfl⟩)
    have hback := hsecond.next (.overwrite (i := 0) (k := 0) (t := lit "./a") rfl rfl
      (.inl (by decide)))
    exact ⟨_, hback, by decide⟩

/-- A `cat` is over, and a synchronous write for its path is in progress. -/
theorem lock_table_sound_after_cat :
    ∃ s, Server.Reached [.cat (lit "./a"), .writeSync (lit "WRITE_SYNC|./a|x")] s ∧
      s.begun = 2 ∧ s.Sound := by
  have hempty : Server.Reached [.cat (lit "./a"), .writeSync (lit "WRITE_SYNC|./a|x")]
      (.afterCats []) := .start rfl
  have hcat := hempty.cat rfl List.not_mem_nil
  have hwrite := hcat.next (.begin rfl rfl)
  refine ⟨_, hwrite, rfl, (lock_table_sound_iff hwrite ?_).1 (by decide)⟩
  intro k r path hr hframe hpath
  match k, hr with
  | 0, hr =>
    cases hr
    cases hframe
  | 1, hr =>
    cases hr
    obtain rfl : lit "./a" = path := Option.some.inj hpath
    exact ⟨0, _, Nat.zero_lt_one, rfl, rfl, rfl⟩

end NetworkFileSystem.Storage
