import NetworkFileSystem.Storage.LockTable

/-!
# One lock for one file

`storage_server.c:21–53,92–107,326–335,465–480`, `lock.c:6–64`. The locks exclude requests
from one another only if all requests for a path come to one entry of `conc_array`. A request
that has not found an entry makes one, and between the two another request can have made
one as well. Where no entry is made for a path that has one, all requests for a path share
their lock, and a write or a removal has its file for itself.
-/

namespace NetworkFileSystem.Storage

open Base Protocol Lock Prog

/-! ### Sections -/

/-- The path that a request names, as its handler takes it from the command. -/
def Request.path : Request → Option Text
  | .writeSync buffer | .writeAsync buffer => (tokens bar buffer)[1]?
  | .cat path | .rm path => some path

/-- The mode in which a request is between its acquire and its release. -/
def lockSection : List SsEvent → Option Mode :=
  List.foldl (fun s e ↦ match e.1 with
    | .acquire m _ => some m
    | .release _ _ => none
    | _ => s) none

theorem lockSection_concat (tr : List SsEvent) (e : SsEvent) :
    lockSection (tr ++ [e]) = match e.1 with
      | .acquire m _ => some m
      | .release _ _ => none
      | _ => lockSection tr :=
  List.foldl_append

/-- The table as the environment of requests that may do what `allowed` says. -/
def lockTableWhere (T : Type) (allowed : SsOp → List LockStruct → Prop) :
    SharedEnvironment T SsOp SsOp.Res (List LockStruct) where
  respond := fun _ o r t t' ↦ allowed o t ∧ tableRespond o r t t'
  silent := fun _ _ ↦ False

variable {T : Type} [DecidableEq T]

/-- The runs of such requests on a table that is empty at first. -/
def RequestRunWhere (allowed : SsOp → List LockStruct → Prop) (requests : T → Request)
    (log : List (T × SsEvent)) (qs : T → SsProg Unit) (table : List LockStruct) : Prop :=
  Interleaved (lockTableWhere T allowed) (fun t ↦ (requests t).program) [] log qs table

/-- An entry is made only for a path that has none. -/
def NoneYet : SsOp → List LockStruct → Prop
  | .create path, table => path ∉ table.map LockStruct.pathToFile
  | _, _ => True

/-- Two requests for one path are inside their sections at the same time only if both read. -/
def OneAtATime (requests : T → Request) (log : List (T × SsEvent)) : Prop :=
  ∀ t u path m n, t ≠ u → (requests t).path = some path → (requests u).path = some path →
    lockSection (own t log) = some m → lockSection (own u log) = some n → m = .read ∧ n = .read

theorem RequestRunWhere.run {allowed : SsOp → List LockStruct → Prop} {requests : T → Request}
    {log : List (T × SsEvent)} {qs : T → SsProg Unit} {table : List LockStruct}
    (h : RequestRunWhere allowed requests log qs table) : RequestRun requests log qs table :=
  Interleaved.mono (E := lockTableWhere T allowed) (fun _ _ _ _ _ hr ↦ hr.2)
    (fun _ _ hs ↦ hs.elim) h

/-! ### The lock of a request -/

/-- The path of a request, and the index of the lock that it has found or made for it. -/
structure Site where
  path : Option Text
  lock : Option Nat
  deriving DecidableEq

namespace Site

/-- A request looks for the lock of its path, once, and takes that lock only. -/
def next (s : Site) : SsEvent → Option Site
  | ⟨.lookup path, r⟩ => if s = ⟨some path, none⟩ then some ⟨some path, r⟩ else none
  | ⟨.create path, i⟩ => if s = ⟨some path, none⟩ then some ⟨some path, some i⟩ else none
  | ⟨.acquire _ i, _⟩ => if s.lock = some i then some s else none
  | _ => some s

theorem path_of_next {s s' : Site} {e : SsEvent} (h : s.next e = some s') : s'.path = s.path := by
  obtain ⟨o, r⟩ := e
  cases o with
  | lookup | create =>
    simp only [next, Option.ite_none_right_eq_some, Option.some.injEq] at h
    obtain ⟨rfl, rfl⟩ := h
    rfl
  | acquire m i =>
    simp only [next, Option.ite_none_right_eq_some, Option.some.injEq] at h
    rw [h.2]
  | _ =>
    cases h
    rfl

end Site

/-- The program keeps to the site `s`. -/
private abbrev StaysAt {α : Type} (s : Site) (p : SsProg α) : Prop :=
  Follows Site.next (fun _ s' ↦ s' = s) s p

private theorem stays_plain {α : Type} {p : SsProg α} (hp : p.Only (·.isPlain = true)) (s : Site) :
    StaysAt s p := by
  refine hp.follows (fun o x ho ↦ ?_)
  cases o with
  | lookup | create | acquire => cases ho
  | _ => rfl

/-- Lookup or creation gives the lock that the rest of the request takes. -/
private theorem follows_lockIndex {α : Type} {path : Text} {f : Nat → SsProg α}
    (h : ∀ i, StaysAt ⟨some path, some i⟩ (f i)) :
    Follows Site.next (fun _ _ ↦ True) ⟨some path, none⟩ (lockIndex path >>= f) := by
  have hindex : Follows Site.next (fun i s ↦ s = ⟨some path, some i⟩) ⟨some path, none⟩
      (lockIndex path) := by
    refine follows_call (fun r ↦ ⟨⟨some path, r⟩, if_pos rfl, ?_⟩)
    cases r with
    | none => exact fun i ↦ ⟨_, if_pos rfl, rfl⟩
    | some i => exact rfl
  refine follows_bind hindex (fun i s hs ↦ ?_)
  subst hs
  exact (h i).mono (fun _ _ _ ↦ trivial)

/-- Without a path the request ends here. -/
private theorem follows_pathLock {α : Type} {x : Option Text} {f : Text → Nat → SsProg α}
    (h : ∀ path i, StaysAt ⟨some path, some i⟩ (f path i)) :
    Follows Site.next (fun _ _ ↦ True) ⟨x, none⟩
      (Prog.ofOption x >>= fun path ↦ lockIndex path >>= f path) := by
  cases x with
  | none => trivial
  | some path => exact follows_lockIndex (h path)

/-- Every request takes no other lock than the one for its path. -/
theorem follows_site (r : Request) :
    Follows Site.next (fun _ _ ↦ True) ⟨r.path, none⟩ r.program := by
  cases r with
  | writeSync buffer =>
    have hfile : Follows Site.next (fun _ _ ↦ True) ⟨(tokens bar buffer)[1]?, none⟩
        (writeFile buffer) := by
      refine follows_pathLock (fun path i ↦ ?_)
      refine follows_step _ (fun _ ↦ if_pos rfl) (fun _ ↦ follows_step _ (fun _ ↦ rfl) ?_)
      rintro (_ | _)
      · exact rfl
      · refine follows_ofOption (fun data _ ↦ follows_step _ (fun _ ↦ rfl) (fun _ ↦ ?_))
        refine follows_step _ (fun _ ↦ rfl) (fun _ ↦ ?_)
        exact follows_step _ (fun _ ↦ rfl) (fun _ ↦ rfl)
    refine follows_bind hfile (fun buffer2 s _ ↦ follows_call (fun _ ↦ ⟨s, rfl, ?_⟩))
    exact (stays_plain (plain_sendAckToNm buffer) s).mono (fun _ _ _ ↦ trivial)
  | writeAsync buffer =>
    refine follows_call (fun _ ↦ ⟨_, rfl, follows_pathLock (fun path i ↦ ?_)⟩)
    refine follows_step _ (fun _ ↦ if_pos rfl) (fun _ ↦ follows_step _ (fun _ ↦ rfl) ?_)
    rintro (_ | _)
    · exact follows_step _ (fun _ ↦ rfl) (fun _ ↦ rfl)
    · refine follows_ofOption (fun ip _ ↦ follows_ofOption (fun port _ ↦ ?_))
      refine follows_ofOption (fun data _ ↦ ?_)
      refine follows_step _ (fun _ ↦ rfl) (fun array ↦ follows_ofOption (fun blocks _ ↦ ?_))
      refine follows_seq (stays_plain (plain_printBlocks blocks) _) (fun _ ↦ ?_)
      refine follows_step _ (fun _ ↦ rfl) (fun _ ↦ ?_)
      refine follows_seq (stays_plain (plain_sendAckToNm _) _) (fun _ ↦ ?_)
      exact follows_step _ (fun _ ↦ rfl) (fun _ ↦ rfl)
  | cat path =>
    refine follows_lockIndex (fun i ↦ follows_step _ (fun _ ↦ if_pos rfl) (fun _ ↦ ?_))
    refine follows_seq (stays_plain (plain_readFile path) _) (fun _ ↦ ?_)
    exact follows_step _ (fun _ ↦ rfl) (fun _ ↦ rfl)
  | rm path =>
    refine follows_lockIndex (fun i ↦ follows_step _ (fun _ ↦ if_pos rfl) (fun _ ↦ ?_))
    refine follows_step _ (fun _ ↦ rfl) (fun removed ↦ follows_step _ (fun _ ↦ rfl) (fun _ ↦ ?_))
    exact follows_step _ (fun _ ↦ rfl) (fun _ ↦ rfl)

/-! ### The entries of the table -/

theorem pathToFile_acquire {m : Mode} {l l' : LockStruct} (h : Lock.acquire m l = some l') :
    l'.pathToFile = l.pathToFile := by
  cases m <;>
    simp only [Lock.acquire, acquireReadLock, acquireWriteLock, acquireDeleteLock,
      Option.ite_none_left_eq_some, Option.some.injEq] at h <;> rw [← h.2]

/-- A store that keeps what `f` says of an element keeps what it says of the list. -/
theorem map_set_of_eq {α β : Type} {f : α → β} {l : List α} {i : Nat} {x y : α}
    (hx : l[i]? = some x) (hf : f y = f x) : (l.set i y).map f = l.map f := by
  obtain ⟨hlt, rfl⟩ := List.getElem?_eq_some_iff.mp hx
  have hi : i < (l.map f).length := by simpa using hlt
  have hget : (l.map f).get ⟨i, hi⟩ = f l[i] := List.getElem_map ..
  rw [List.map_set, hf, ← hget]
  exact List.set_getElem_self _

/-- The path for which an operation makes an entry. -/
def made : SsOp → List Text
  | .create path => [path]
  | _ => []

/-- Only a creation changes which paths have an entry where. -/
theorem paths_respond {o : SsOp} {r : o.Res} {table table' : List LockStruct}
    (hr : tableRespond o r table table') :
    table'.map LockStruct.pathToFile = table.map LockStruct.pathToFile ++ made o := by
  cases o with
  | lookup path =>
    obtain ⟨-, rfl⟩ := hr
    exact (List.append_nil _).symm
  | create path =>
    obtain ⟨-, -, rfl⟩ := hr
    rw [List.map_append]
    rfl
  | acquire m i =>
    obtain ⟨l, l', hl, hl', rfl⟩ := hr
    rw [map_set_of_eq hl (pathToFile_acquire hl')]
    exact (List.append_nil _).symm
  | release m i =>
    obtain ⟨l, hl, rfl⟩ := hr
    rw [map_set_of_eq hl (by cases m <;> rfl)]
    exact (List.append_nil _).symm
  | _ =>
    obtain rfl : table' = table := hr
    exact (List.append_nil _).symm

/-- What a step has looked up or made is the entry of the path. -/
theorem lock_of_next {s s' : Site} {o : SsOp} {r : o.Res} {table table' : List LockStruct}
    (hs : s.next ⟨o, r⟩ = some s') (hr : tableRespond o r table table') {i : Nat}
    (hi : s'.lock = some i) :
    s' = s ∨ ∃ path, s'.path = some path ∧ (table'.map LockStruct.pathToFile)[i]? = some path := by
  cases o with
  | lookup path =>
    simp only [Site.next, Option.ite_none_right_eq_some, Option.some.injEq] at hs
    obtain ⟨-, rfl⟩ := hs
    obtain ⟨rfl, rfl⟩ := hr
    obtain ⟨hlt, hpath, -⟩ := List.findIdx?_eq_some_iff_getElem.mp hi
    refine .inr ⟨path, rfl, ?_⟩
    rw [List.getElem?_map, List.getElem?_eq_getElem hlt, Option.map_some, of_decide_eq_true hpath]
  | create path =>
    simp only [Site.next, Option.ite_none_right_eq_some, Option.some.injEq] at hs
    obtain ⟨-, rfl⟩ := hs
    obtain ⟨rfl, -, rfl⟩ := hr
    cases hi
    refine .inr ⟨path, rfl, ?_⟩
    rw [List.getElem?_map, List.getElem?_concat_length]
    rfl
  | acquire m j =>
    simp only [Site.next, Option.ite_none_right_eq_some, Option.some.injEq] at hs
    exact .inl hs.2.symm
  | _ => exact .inl (Option.some.inj hs).symm

/-- No path has two entries, and what requests have found are the entries of their paths. -/
structure Sited (st : T → Site) (table : List LockStruct) : Prop where
  nodup : (table.map LockStruct.pathToFile).Nodup
  found : ∀ t i, (st t).lock = some i →
    ∃ path, (st t).path = some path ∧ (table.map LockStruct.pathToFile)[i]? = some path

private theorem Sited.step {st : T → Site} {table table' : List LockStruct} {t : T} {o : SsOp}
    {r : o.Res} {s' : Site} (h : Sited st table) (hs : (st t).next ⟨o, r⟩ = some s')
    (hnew : NoneYet o table) (hr : tableRespond o r table table') :
    Sited (Function.update st t s') table' := by
  have hpaths := paths_respond hr
  have hkeep : ∀ (i : Nat) path, (table.map LockStruct.pathToFile)[i]? = some path →
      (table'.map LockStruct.pathToFile)[i]? = some path := by
    intro i path hi
    rw [hpaths, List.getElem?_append_left (List.getElem?_eq_some_iff.mp hi).1, hi]
  have hold : ∀ u i, (st u).lock = some i →
      ∃ path, (st u).path = some path ∧ (table'.map LockStruct.pathToFile)[i]? = some path := by
    intro u i hi
    obtain ⟨path, hpath, hget⟩ := h.found u i hi
    exact ⟨path, hpath, hkeep i path hget⟩
  constructor
  · rw [hpaths]
    cases o with
    | create path => exact List.concat_eq_append ▸ h.nodup.concat hnew
    | _ => simpa [made] using h.nodup
  · intro u i hi
    by_cases hu : u = t
    · subst hu
      rw [Function.update_self] at hi ⊢
      obtain rfl | hfound := lock_of_next hs hr hi
      · exact hold u i hi
      · exact hfound
    · rw [Function.update_of_ne hu] at hi ⊢
      exact hold u i hi

/-! ### The result -/

private theorem held_of_next {s s' : Hold} {e : SsEvent} (h : s.next e = some s') :
    s'.held = match e.1 with
      | .acquire m i => some (m, i)
      | .release _ _ => none
      | _ => s.held := by
  obtain ⟨o, r⟩ := e
  cases o with
  | acquire m i | release m i =>
    simp only [Hold.next, Option.ite_none_right_eq_some, Option.some.injEq] at h
    rw [← h.2]
  | fopen path =>
    cases r with
    | false | true =>
      cases h
      rfl
  | _ =>
    cases h
    rfl

/-- A site that has found its lock keeps it. -/
private theorem lock_mono {s s' : Site} {e : SsEvent} (h : s.next e = some s') {i : Nat}
    (hi : s.lock = some i) : s'.lock = some i := by
  obtain ⟨o, r⟩ := e
  cases o with
  | lookup | create =>
    simp only [Site.next, Option.ite_none_right_eq_some] at h
    rw [h.1] at hi
    cases hi
  | acquire m j =>
    simp only [Site.next, Option.ite_none_right_eq_some, Option.some.injEq] at h
    rw [← h.2, hi]
  | _ =>
    cases h
    exact hi

/-- A request is in its section exactly while it holds a lock, the one of its site. -/
private theorem held_of_states {tr : List SsEvent} {start site : Site} {s : Hold}
    (hs : stateAfter Hold.next .start tr = some s)
    (hsite : stateAfter Site.next start tr = some site) :
    s.held.map Prod.fst = lockSection tr ∧ site.path = start.path ∧
      ∀ m i, s.held = some (m, i) → site.lock = some i := by
  induction tr using List.reverseRecOn generalizing s site with
  | nil =>
    cases hs
    cases hsite
    exact ⟨rfl, rfl, by simp [Hold.start]⟩
  | append_singleton tr e ih =>
    rw [stateAfter_concat] at hs hsite
    obtain ⟨s₁, hs₁, hs⟩ := Option.bind_eq_some_iff.mp hs
    obtain ⟨site₁, hsite₁, hsite⟩ := Option.bind_eq_some_iff.mp hsite
    obtain ⟨hsection, hpath, hlock⟩ := ih hs₁ hsite₁
    obtain ⟨o, r⟩ := e
    have hheld := held_of_next hs
    refine ⟨?_, (Site.path_of_next hsite).trans hpath, fun m i hi ↦ ?_⟩
    · rw [lockSection_concat, hheld, ← hsection]
      cases o <;> rfl
    · rw [hheld] at hi
      cases o with
      | acquire m' j =>
        cases hi
        simp only [Site.next, Option.ite_none_right_eq_some, Option.some.injEq] at hsite
        rw [← hsite.2, hsite.1]
      | release m' j => cases hi
      | _ => exact lock_mono hsite (hlock m i hi)

variable [Fintype T]

omit [DecidableEq T] in
/-- Two holders of one lock read. -/
private theorem Accounted.read_of_shared {held : T → Option (Mode × Nat)}
    {table : List LockStruct} (h : Accounted held table) {t u : T} {m n : Mode} {i : Nat}
    (hne : t ≠ u) (ht : held t = some (m, i)) (hu : held u = some (n, i)) :
    m = .read ∧ n = .read := by
  have hi := h.bound t m i ht
  have hex := h.exclusive i _ (List.getElem?_eq_getElem hi)
  have hmem : ∀ x k, held x = some (k, i) → x ∈ holders (fun t ↦ phaseAt i (held t)) k := by
    intro x k hx
    simp [mem_holders, hx, phaseAt]
  have htm := hmem t m ht
  have hun := hmem u n hu
  have hone := hex.one
  have halone := hex.alone
  have hpos : ∀ x k, x ∈ holders (fun t ↦ phaseAt i (held t)) k →
      0 < (holders (fun t ↦ phaseAt i (held t)) k).card := fun x k hx ↦ Finset.card_pos.mpr ⟨x, hx⟩
  have hsame : ∀ k, t ∈ holders (fun t ↦ phaseAt i (held t)) k →
      u ∈ holders (fun t ↦ phaseAt i (held t)) k →
      1 < (holders (fun t ↦ phaseAt i (held t)) k).card :=
    fun k hk hk' ↦ Finset.one_lt_card.mpr ⟨t, hk, u, hk', hne⟩
  have hp := hpos t m htm
  have hq := hpos u n hun
  simp only at hone halone
  cases m <;> cases n <;>
    first
      | exact ⟨rfl, rfl⟩
      | (exfalso; have := hsame _ htm hun; omega)
      | (exfalso; omega)

/-- In every interleaving in which no entry is made for a path that has one, no two requests for
one path are inside their sections at the same time unless both read. -/
theorem one_at_a_time_of_one_entry {requests : T → Request} {log : List (T × SsEvent)}
    {qs : T → SsProg Unit} {table : List LockStruct}
    (h : RequestRunWhere NoneYet requests log qs table) : OneAtATime requests log := by
  obtain ⟨st, hacc, hst⟩ := h.run.accounted
  obtain ⟨sites, hsited, hsites⟩ := Interleaved.follows h (I := Sited)
    (fun t ↦ follows_site (requests t)) ⟨List.nodup_nil, fun _ _ hi ↦ nomatch hi⟩
    (fun _ _ _ _ hs ↦ hs.elim) (fun _ _ _ _ _ _ _ hI hs hr ↦ hI.step hs hr.1 hr.2)
  intro t u path m n hne ht hu hm hn
  obtain ⟨htsection, htpath, htlock⟩ := held_of_states (hst t).2 (hsites t).2
  obtain ⟨husection, hupath, hulock⟩ := held_of_states (hst u).2 (hsites u).2
  rw [hm] at htsection
  rw [hn] at husection
  obtain ⟨⟨_, i⟩, hti, rfl⟩ := Option.map_eq_some_iff.mp htsection
  obtain ⟨⟨_, j⟩, huj, rfl⟩ := Option.map_eq_some_iff.mp husection
  -- Both locks are entries for the path, of which there is one.
  have hentry : ∀ x k mode, (st x).held = some (mode, k) → (requests x).path = some path →
      (∀ m i, (st x).held = some (m, i) → (sites x).lock = some i) →
      (sites x).path = (requests x).path →
      (table.map LockStruct.pathToFile)[k]? = some path := by
    intro x k mode hheld hpath hlock hsame
    obtain ⟨path', hpath', hget⟩ := hsited.found x k (hlock mode k hheld)
    rw [hsame, hpath] at hpath'
    cases hpath'
    exact hget
  have hi := hentry t i _ hti ht htlock htpath
  have hj := hentry u j _ huj hu hulock hupath
  obtain rfl := (List.getElem?_inj (List.getElem?_eq_some_iff.mp hi).1 hsited.nodup).mp (hi.trans hj.symm)
  exact hacc.read_of_shared hne hti huj

/-- Two `cat`s of `./s/f`, and a write to it. -/
private def readsAndWrite (t : Fin 3) : Request :=
  if t = 2 then .writeSync (lit "WRITE_SYNC|./s/f|x") else .cat (lit "./s/f")

/-- Both `cat`s have the lock that the first one made, and the write that has found it too cannot
take it; when they are done, it does. -/
theorem one_at_a_time_waiting_write :
    ∃ log qs table, RequestRunWhere NoneYet readsAndWrite log qs table ∧
      lockSection (own 0 log) = some .read ∧ lockSection (own 1 log) = some .read ∧
      (∃ k, qs 2 = .perform (.acquire .write 0) k) ∧
      (∀ table', ¬ tableRespond (.acquire .write 0) () table table') ∧ OneAtATime readsAndWrite log ∧
      ∃ log' qs' table', RequestRunWhere NoneYet readsAndWrite (log ++ log') qs' table' ∧
        lockSection (own 2 (log ++ log')) = some .write ∧
        OneAtATime readsAndWrite (log ++ log') := by
  have h₀ : RequestRunWhere NoneYet readsAndWrite [] _ [] := .start
  have h₁ := Interleaved.step h₀ (t := 0) (r := none) rfl ⟨trivial, rfl, rfl⟩
  have h₂ := Interleaved.step h₁ (t := 0) (r := (0 : Nat)) rfl
    ⟨List.not_mem_nil, rfl, by decide, rfl⟩
  have h₃ := Interleaved.step h₂ (t := 0) (r := ()) rfl ⟨trivial, _, _, rfl, rfl, rfl⟩
  have h₄ := Interleaved.step h₃ (t := 2) (r := some (0 : Nat)) rfl ⟨trivial, by decide, rfl⟩
  have h₅ := Interleaved.step h₄ (t := 1) (r := some (0 : Nat)) rfl ⟨trivial, by decide, rfl⟩
  have h₆ := Interleaved.step h₅ (t := 1) (r := ()) rfl ⟨trivial, _, _, rfl, rfl, rfl⟩
  have h₇ := Interleaved.step h₆ (t := 0) (r := none) rfl ⟨trivial, rfl⟩
  have h₈ := Interleaved.step h₇ (t := 0) (r := true) rfl ⟨trivial, rfl⟩
  have h₉ := Interleaved.step h₈ (t := 0) (r := ()) rfl ⟨trivial, _, rfl, rfl⟩
  have h₁₀ := Interleaved.step h₉ (t := 1) (r := none) rfl ⟨trivial, rfl⟩
  have h₁₁ := Interleaved.step h₁₀ (t := 1) (r := true) rfl ⟨trivial, rfl⟩
  have h₁₂ := Interleaved.step h₁₁ (t := 1) (r := ()) rfl ⟨trivial, _, rfl, rfl⟩
  have h₁₃ := Interleaved.step h₁₂ (t := 2) (r := ()) rfl ⟨trivial, _, _, rfl, rfl, rfl⟩
  refine ⟨_, _, _, h₆, rfl, rfl, ⟨_, rfl⟩, ?_, one_at_a_time_of_one_entry h₆, _, _, _, h₁₃, rfl,
    one_at_a_time_of_one_entry h₁₃⟩
  rintro table' ⟨l, l', hl, hl', -⟩
  cases hl
  cases hl'

/-- Two writes are the first requests for `./s/f`. Neither finds a lock, each makes its own, and
both write at the same time. -/
theorem first_writes_overlap :
    ¬ ∀ (requests : Bool → Request) (log : List (Bool × SsEvent)) (qs : Bool → SsProg Unit)
      (table : List LockStruct), RequestRunWhere (fun _ _ ↦ True) requests log qs table →
      OneAtATime requests log := by
  intro hall
  have h₀ : RequestRunWhere (fun _ _ ↦ True)
      (fun _ : Bool ↦ Request.writeSync (lit "WRITE_SYNC|./s/f|x")) [] _ [] := .start
  have h₁ := Interleaved.step h₀ (t := true) (r := none) rfl ⟨trivial, rfl, rfl⟩
  have h₂ := Interleaved.step h₁ (t := false) (r := none) rfl ⟨trivial, rfl, rfl⟩
  have h₃ := Interleaved.step h₂ (t := true) (r := (0 : Nat)) rfl ⟨trivial, rfl, by decide, rfl⟩
  have h₄ := Interleaved.step h₃ (t := false) (r := (1 : Nat)) rfl ⟨trivial, rfl, by decide, rfl⟩
  have h₅ := Interleaved.step h₄ (t := true) (r := ()) rfl ⟨trivial, _, _, rfl, rfl, rfl⟩
  have h₆ := Interleaved.step h₅ (t := false) (r := ()) rfl ⟨trivial, _, _, rfl, rfl, rfl⟩
  obtain ⟨hread, -⟩ := hall _ _ _ _ h₆ true false (lit "./s/f") .write .write (by decide)
    (by decide) (by decide) rfl rfl
  cases hread

end NetworkFileSystem.Storage
