import NetworkFileSystem.Cluster.Fleet
import NetworkFileSystem.Naming.Tables

/-!
# How an update reaches the backups

`naming_server.c:878–906,1007–1050,1187–1255`, `storage_server.c:376–416,500–540`. What the
storage servers have done when the naming server has gone through a command or a
notification, provided that the servers it needs are still up: one entry of the server has
changed, and so has its replica on every backup.
-/

namespace NetworkFileSystem.Cluster

open Base Base.Prog Protocol Trie Naming Storage Transfer

/-! ### One server -/

section Obeys

variable {buffer : Text} {out : List Text} {s s' : SsState}

/-- A command about one entry makes one call, on the path in its second word; the call fails only
if it has to. -/
theorem Obeys.spec (h : Obeys buffer out s s') :
    ∃ v path ok, branch buffer = some v ∧ (words buffer)[1]? = some path ∧
      (faultless s.cwd).respond ⟨v.call, v.target s.rootPath path⟩ ok s.disk s'.disk ∧
      s'.cwd = s.cwd ∧ s'.rootPath = s.rootPath ∧
      ∃ buffer2, couldNot buffer2 = !ok ∧ buffer2 ≠ [] ∧ out = replies buffer buffer2 [] := by
  obtain ⟨round, tr, locks, disk, hround, hx, hacc, rfl⟩ := h
  obtain ⟨v, path, ok, hv, hpath, rfl, buffer2, hok, hne, hout⟩ := exec_entryRound hround hx
  exact ⟨v, path, ok, hv, hpath, hacc.single (fun _ _ ↦ id), rfl, rfl, buffer2, hok, hne, hout⟩

/-- A server without faults is a server. -/
theorem Obeys.handles (h : Obeys buffer out s s') : s.Handles buffer out s' := by
  obtain ⟨round, tr, locks, disk, hround, hx, hacc, rfl⟩ := h
  refine ⟨round, tr, locks, disk, hround, hx, ?_, rfl⟩
  obtain ⟨v, path, ok, -, -, rfl, -⟩ := exec_entryRound hround hx
  exact .event (hacc.single (fun _ _ ↦ id)).1 .nil

/-- Only a command about an entry is obeyed. -/
theorem Obeys.function (h : Obeys buffer out s s') :
    ∃ v function, branch buffer = some v ∧ v.function = some function := by
  obtain ⟨round, -, -, -, hround, -⟩ := h
  simp only [entryRound, Option.pure_def, Option.bind_eq_bind, Option.bind_eq_some_iff,
    Prod.exists] at hround
  obtain ⟨_, _, hexec, v, rfl, function, hf, -⟩ := hround
  exact ⟨v, function, (execute_eq_some hexec).1, hf⟩

/-- A command about an entry starts no copy. -/
theorem copyPrograms_of_function {v : Verb} {function : List Text → FsProg Text}
    (hv : branch buffer = some v) (hf : v.function = some function) (fuel g : Nat) :
    copyPrograms buffer fuel g = none := by
  unfold copyPrograms
  rw [hv]
  cases v with
  | copydifferentb | lcopy | copydifferent => cases hf
  | _ => rfl

end Obeys

/-! ### The environment -/

/-- Some servers may have stopped, and what they had sent is lost. -/
structure Ebbs (f f' : Fleet) : Prop where
  address : f'.address = f.address
  up : ∀ j, f'.up j = true → f.up j = true
  answers : ∀ j, f'.answers j = f.answers j ∨ f'.answers j = []

theorem Ebbs.trans {f f' f'' : Fleet} (h : Ebbs f f') (h' : Ebbs f' f'') : Ebbs f f'' := by
  refine ⟨h'.address.trans h.address, fun j hj ↦ h.up j (h'.up j hj), fun j ↦ ?_⟩
  obtain hj | hj := h'.answers j
  · rw [hj]
    exact h.answers j
  · exact .inr hj

theorem Ebbs.quiet {f f' : Fleet} (h : Ebbs f f') {j : Nat} (hj : f.answers j = []) :
    f'.answers j = [] := by
  obtain hj' | hj' := h.answers j
  · rw [hj', hj]
  · exact hj'

/-- Nothing else has happened. -/
structure Fades (f f' : Fleet) : Prop extends Ebbs f f' where
  servers : f'.servers = f.servers

namespace Fades

variable {f f' f'' : Fleet}

theorem refl (f : Fleet) : Fades f f := ⟨⟨rfl, fun _ h ↦ h, fun _ ↦ .inl rfl⟩, rfl⟩

theorem trans (h : Fades f f') (h' : Fades f' f'') : Fades f f'' :=
  ⟨h.toEbbs.trans h'.toEbbs, h'.servers.trans h.servers⟩

theorem lose (f : Fleet) (j : Nat) : Fades f (f.lose j) := by
  refine ⟨⟨rfl, fun k hk ↦ ?_, fun k ↦ ?_⟩, rfl⟩
  · by_cases hkj : k = j
    · simp [Fleet.lose, hkj] at hk
    · simpa [Fleet.lose, Function.update_of_ne hkj] using hk
  · by_cases hkj : k = j
    · exact .inr (by simp [Fleet.lose, hkj])
    · exact .inl (by simp [Fleet.lose, Function.update_of_ne hkj])

theorem of_silent (h : Relation.ReflTransGen outages.silent f f') : Fades f f' := by
  induction h with
  | refl => exact refl f
  | tail _ hstep ih =>
    obtain ⟨j, rfl⟩ := hstep
    exact ih.trans (lose _ j)

/-- Pings and messages to clients change nothing. -/
theorem of_offLink {tr : List NsEvent} (htr : OffLink tr) (h : outages.Accepts f tr f') :
    Fades f f' := by
  induction h with
  | nil => exact refl _
  | silent hs _ ih =>
    obtain ⟨j, rfl⟩ := hs
    exact (lose _ j).trans (ih htr)
  | @event w w' w'' o r tr hr _ ih =>
    have hrest := ih (fun e he ↦ htr e (by simp [he]))
    have ho := htr ⟨o, r⟩ (by simp)
    cases o with
    | ping i =>
      obtain ⟨rfl, -⟩ := hr
      exact hrest
    | sendClient msg | sendAck ip port msg =>
      cases hr
      exact hrest
    | _ => cases ho

theorem store (h : Fades f f') (j : Nat) (s : SsState) : Fades (f.store j s) (f'.store j s) := by
  refine ⟨⟨h.address, h.up, h.answers⟩, ?_⟩
  simp [Fleet.store, h.servers]

theorem ebbs {j : Nat} {s : SsState} (h : Fades (f.store j s) f') : Ebbs f f' :=
  ⟨h.address, h.up, h.answers⟩

end Fades

namespace Fleet

variable {f f' : Fleet} {i b : Nat} {msg : Text} {tr : List NsEvent}

theorem up_of_carries (h : Carries i msg f f') (j : Nat) (hj : f'.up j = true) :
    f.up j = true := by
  cases h with
  | entry _ => exact hj
  | copy _ hcopy =>
    cases hcopy with
    | unreachable _ => exact hj
    | finished _ _ _ _ => exact hj
    | interrupted _ _ _ _ _ => exact (Fades.lose _ _).up j hj

/-- No server comes up in the middle of a command. -/
theorem up_of_accepts (h : outages.Accepts f tr f') (j : Nat) (hj : f'.up j = true) :
    f.up j = true := by
  induction h with
  | nil => exact hj
  | silent hs _ ih =>
    obtain ⟨k, rfl⟩ := hs
    exact (Fades.lose _ k).up j (ih hj)
  | @event w w' w'' o r tr hr _ ih =>
    have hw := ih hj
    cases o with
    | ping i =>
      obtain ⟨rfl, -⟩ := hr
      exact hw
    | forward i msg | replicate i msg =>
      obtain ⟨-, -, hcarries⟩ | ⟨-, rfl⟩ := hr
      · exact up_of_carries hcarries j hw
      · exact hw
    | recvServer i =>
      obtain ⟨_, _, -, -, rfl⟩ | ⟨-, -, -, rfl⟩ := hr
      · exact hw
      · exact hw
    | sendClient msg | sendAck ip port msg =>
      cases hr
      exact hw
    | reindex i | recvIndex i => exact hr.elim

/-- A command about an entry that is delivered. -/
private theorem Delivers.obeys {ok : Bool} (hmsg : copyPrograms msg 0 0 = none)
    (hup : f.up i = true) (h : Delivers i msg ok f f') :
    ∃ out s, Obeys msg out (f.servers i) s ∧ f' = (f.store i s).send i out := by
  obtain ⟨-, -, hcarries⟩ | ⟨hdown, -⟩ := h
  · cases hcarries with
    | entry hobeys => exact ⟨_, _, hobeys, rfl⟩
    | copy hcopy _ =>
      rw [hmsg] at hcopy
      cases hcopy
  · rw [hup] at hdown
    cases hdown

/-- A command about an entry and its only answer. -/
theorem exchange {bytes : Text} {ok : Bool} (hquiet : f.answers i = [])
    (hmsg : copyPrograms msg 0 0 = none)
    (hone : ∀ out s, Obeys msg out (f.servers i) s → ∃ reply, out = [reply])
    (h : outages.Accepts f (⟨.forward i msg, ok⟩ :: ⟨.recvServer i, some bytes⟩ :: tr) f') :
    ∃ s u, Obeys msg [bytes] (f.servers i) s ∧ Fades (f.store i s) u ∧
      outages.Accepts u tr f' := by
  obtain ⟨u₁, u₂, hs₁, hr₁, h₁⟩ := h.cons
  obtain ⟨u₃, u₄, hs₂, hr₂, h₂⟩ := h₁.cons
  have hfades₁ := Fades.of_silent hs₁
  have hfades₂ := Fades.of_silent hs₂
  have hquiet₁ : u₁.answers i = [] := hfades₁.quiet hquiet
  obtain ⟨a, rest, hanswers, ha, rfl⟩ | ⟨-, -, hnone, -⟩ := hr₂
  · cases ha
    have hup : u₁.up i = true := by
      by_contra hdown
      obtain ⟨hup, -⟩ | ⟨-, rfl⟩ := hr₁
      · exact hdown hup
      · rw [hfades₂.quiet hquiet₁] at hanswers
        cases hanswers
    obtain ⟨out, s, hobeys, rfl⟩ := Delivers.obeys hmsg hup hr₁
    rw [hfades₁.servers] at hobeys
    obtain ⟨reply, rfl⟩ := hone out s hobeys
    have hlast : bytes = reply ∧ rest = [] := by
      obtain ha | ha := hfades₂.answers i
      · rw [ha] at hanswers
        simpa [Fleet.send, Fleet.store, hquiet₁, eq_comm] using hanswers
      · rw [ha] at hanswers
        cases hanswers
    obtain ⟨rfl, rfl⟩ := hlast
    refine ⟨s, _, hobeys, ⟨⟨?_, fun j hj ↦ ?_, fun j ↦ ?_⟩, ?_⟩, h₂⟩
    · exact hfades₂.address.trans hfades₁.address
    · exact hfades₁.up j (hfades₂.up j hj)
    · by_cases hj : j = i
      · exact .inr (by simp [hj])
      · simp only [Function.update_of_ne hj]
        obtain ha | ha := hfades₂.answers j
        · rw [ha]
          simp only [Fleet.send, Function.update_of_ne hj]
          exact hfades₁.answers j
        · exact .inr ha
    · change u₃.servers = _
      rw [hfades₂.servers]
      simp [Fleet.send, Fleet.store, hfades₁.servers]
  · cases hnone

/-- A command that a backup gets and does not answer. -/
theorem repeated {ok : Bool} (hmsg : copyPrograms msg 0 0 = none) (hup : f'.up b = true)
    (hnone : ∀ out s, Obeys msg out (f.servers b) s → out = [])
    (h : outages.Accepts f [⟨.replicate b msg, ok⟩] f') :
    ∃ s, Obeys msg [] (f.servers b) s ∧ Fades (f.store b s) f' := by
  obtain ⟨u₁, u₂, hs₁, hr₁, h₁⟩ := h.cons
  have hfades₁ := Fades.of_silent hs₁
  have hfades₂ := Fades.of_silent h₁.ended
  have hup₁ : u₁.up b = true := by
    have hup₂ := hfades₂.up b hup
    obtain ⟨hup₁, -⟩ | ⟨-, rfl⟩ := hr₁
    · exact hup₁
    · exact hup₂
  obtain ⟨out, s, hobeys, rfl⟩ := Delivers.obeys hmsg hup₁ hr₁
  rw [hfades₁.servers] at hobeys
  obtain rfl := hnone out s hobeys
  refine ⟨s, hobeys, (hfades₁.store b s).trans ?_⟩
  have hsend : (u₁.store b s).send b [] = u₁.store b s := by
    simp [Fleet.send]
  rw [hsend] at hfades₂
  exact hfades₂

/-- What one backup has done with a command that is repeated. -/
theorem follows {backup : Option Nat} (hmsg : copyPrograms msg 0 0 = none)
    (hup : ∀ b, backup = some b → f'.up b = true)
    (hnone : ∀ b out s, backup = some b → Obeys msg out (f.servers b) s → out = [])
    (hsends : SendsTo msg backup tr) (h : outages.Accepts f tr f') :
    (backup = none ∧ Fades f f') ∨
      ∃ b s, backup = some b ∧ Obeys msg [] (f.servers b) s ∧ Fades (f.store b s) f' := by
  cases backup with
  | none =>
    cases hsends
    exact .inl ⟨rfl, .of_silent h.ended⟩
  | some b =>
    have hb := hup b rfl
    obtain ⟨ok, rfl⟩ | ⟨r, hr, rfl⟩ := hsends
    · obtain ⟨u₁, u₂, hs₁, ⟨rfl, -⟩, h₁⟩ := h.cons
      have hfades := Fades.of_silent hs₁
      obtain ⟨s, hobeys, hlast⟩ := repeated hmsg hb
        (fun out s hs ↦ hnone b out s rfl (hfades.servers ▸ hs)) h₁
      rw [hfades.servers] at hobeys
      exact .inr ⟨b, s, rfl, hobeys, (hfades.store b s).trans hlast⟩
    · -- The backup is up to the end, so it has answered the ping.
      obtain ⟨u₁, u₂, -, ⟨rfl, hping⟩, h₁⟩ := h.cons
      exact absurd (hping.mpr (up_of_accepts h₁ b hb)) hr

end Fleet

/-! ### Commands on entries -/

section Entry

variable {v : Verb} {ws : List Text} {s s' : SsState} {out : List Text}

/-- The place of a replica as a path. -/
theorem replicaPath_pathText (r : Text) (hws : ws ≠ []) :
    replicaPath r (pathText ws) = pathText (lit "backupfolderforss" :: r :: ws) := by
  obtain ⟨w, ws, rfl⟩ := List.exists_cons_of_ne_nil hws
  simp [replicaPath, backupFolder, pathText, lit, slash]

theorem resolveFrom_replicaPath (hs : Proper s) (hws : Canonical ws) :
    resolveFrom s.cwd (replicaPath (rootName s) (pathText ws)) = replicaPlace s ws := by
  rw [replicaPath_pathText _ hws.ne_nil]
  apply resolveFrom_pathText
  intro w hw
  obtain rfl | hw := List.mem_cons.mp hw
  · exact ⟨by decide, by decide, by decide, by decide, by decide⟩
  · obtain rfl | hw := List.mem_cons.mp hw
    · exact hs.name
    · exact hws.fileName w hw

/-- The form of a command for backups, which makes the same call. -/
private theorem exists_backupVerb (hv : IsEntry v) :
    ∃ vb : Verb, vb.isBackup = true ∧ vb.name = v.name ++ lit "b" ∧ vb.call = v.call ∧
      ∃ function, vb.function = some function := by
  obtain rfl | rfl | rfl | rfl := hv
  · exact ⟨.mkdirb, rfl, rfl, rfl, _, rfl⟩
  · exact ⟨.touchb, rfl, rfl, rfl, _, rfl⟩
  · exact ⟨.rmb, rfl, rfl, rfl, _, rfl⟩
  · exact ⟨.rmdirb, rfl, rfl, rfl, _, rfl⟩

private theorem backupCommand_eq {vb : Verb} (hname : vb.name = v.name ++ lit "b")
    (hfits : (v.name ++ lit "b " ++ pathText ws).length < bufferSize) :
    backupCommand v.name (pathText ws) = commandLine vb.name ws := by
  rw [backupCommand, clip, List.take_of_length_le (Nat.le_sub_one_of_lt hfits), commandLine, hname]
  simp [lit, blank]

/-- What a backup does with a command that is repeated for it. -/
theorem Obeys.repeated (hv : IsEntry v) (hws : Canonical ws) (hs : Proper s)
    (hfits : (v.name ++ lit "b " ++ pathText ws).length < bufferSize)
    (hreplica : (replicaPath (rootName s) (pathText ws)).length < maxPathSize)
    (h : Obeys (backupCommand v.name (pathText ws)) out s s') :
    s'.cwd = s.cwd ∧ s'.rootPath = s.rootPath ∧
      (v.call.Effect (replicaPlace s ws) s.disk s'.disk ∨
        ∀ fs, ¬ v.call.Effect (replicaPlace s ws) s.disk fs) := by
  obtain ⟨vb, hb, hname, hcall, -⟩ := exists_backupVerb hv
  rw [backupCommand_eq hname hfits] at h
  obtain ⟨v', path, ok, hbranch, hpath, ⟨hrespond, hfault⟩, hcwd, hroot, -⟩ := h.spec
  obtain rfl : vb = v' := by
    rw [commandLine, branch_of_isBackup hb] at hbranch
    exact Option.some.inj hbranch
  have hverb : blank ∉ vb.name ∧ vb.name ≠ [] := by
    cases vb <;> decide
  rw [words_commandLine hverb.1 hverb.2 hws] at hpath
  obtain rfl : pathText ws = path := by simpa using hpath
  have htarget : resolveFrom s.cwd (vb.target s.rootPath (pathText ws)) = replicaPlace s ws := by
    have hdrop : (pathText [rootName s]).drop 2 = rootName s := by simp [pathText, lit]
    rw [← resolveFrom_replicaPath hs hws, Verb.target, if_pos hb, backupPath, hs.root, hdrop]
    exact congrArg (resolveFrom s.cwd) (List.take_of_length_le (Nat.le_sub_one_of_lt hreplica))
  refine ⟨hcwd, hroot, ?_⟩
  cases ok with
  | true =>
    refine .inl ?_
    change vb.call.Effect _ _ _ at hrespond
    rwa [htarget, hcall] at hrespond
  | false =>
    refine .inr (fun fs hfs ↦ hfault rfl fs ?_)
    rwa [htarget, hcall]

theorem Obeys.unanswered (hv : IsEntry v)
    (hfits : (v.name ++ lit "b " ++ pathText ws).length < bufferSize)
    (h : Obeys (backupCommand v.name (pathText ws)) out s s') : out = [] := by
  obtain ⟨vb, hb, hname, -⟩ := exists_backupVerb hv
  rw [backupCommand_eq hname hfits] at h
  obtain ⟨-, -, -, -, -, -, -, -, buffer2, -, -, rfl⟩ := h.spec
  exact replies_of_isBackup (branch_of_isBackup hb _) hb _ _

theorem copyPrograms_backupCommand (hv : IsEntry v)
    (hfits : (v.name ++ lit "b " ++ pathText ws).length < bufferSize) :
    copyPrograms (backupCommand v.name (pathText ws)) 0 0 = none := by
  obtain ⟨vb, hb, hname, -, function, hf⟩ := exists_backupVerb hv
  rw [backupCommand_eq hname hfits]
  exact copyPrograms_of_function (branch_of_isBackup hb _) hf 0 0

theorem copyPrograms_commandLine (hv : IsEntry v) :
    copyPrograms (commandLine v.name ws) 0 0 = none := by
  obtain rfl | rfl | rfl | rfl := hv <;> rfl

/-- The two disks have the same entries from the given places on, as far as `root` goes. -/
def AgreeBelow (root : Text) (place place' : List Text) (fs gs : FileSystem) : Prop :=
  ∀ p, [root] <+: p → gs.entry (place' ++ p) = fs.entry (place ++ p)

/-- A call that succeeds on one of two disks that agree succeeds on the other one. -/
theorem AgreeBelow.effect {root : Text} {place place' : List Text} {fs fs' gs : FileSystem}
    {call : Call} (h : AgreeBelow root place place' fs gs) (hws : [root] <+: ws)
    (hdir : call.makes = true → [root] <+: ws.dropLast)
    (heffect : call.Effect (place ++ ws) fs fs') : ∃ gs', call.Effect (place' ++ ws) gs gs' := by
  obtain ⟨dir, name, rfl⟩ : ∃ dir name, ws = dir ++ [name] := by
    have hne : ws ≠ [] := by
      rintro rfl
      simp at hws
    exact ⟨ws.dropLast, ws.getLast hne, (List.dropLast_append_getLast hne).symm⟩
  rw [List.dropLast_concat] at hdir
  rw [← List.append_assoc]
  apply heffect.elsewhere
  · rw [List.append_assoc]
    exact h _ hws
  · intro hmakes
    rw [h dir (hdir hmakes), ← heffect.other (by simp)]
    apply fs'.parent _ name
    rw [List.append_assoc]
    exact heffect.made hmakes
  · intro hmakes w
    rw [List.append_assoc, List.append_assoc,
      h _ (hws.trans (by rw [← List.append_assoc]; exact List.prefix_append _ _))]
    have hbelow := (heffect.removed hmakes).2 [w] (by simp)
    simpa using hbelow

end Entry

/-! ### Updates -/

/-- The path `ws` of server `i` has become `x`, and so has its replica on every backup. -/
structure Propagates (st : NsState) (i : Nat) (ws : List Text) (x : Option Entry)
    (f f' : Nat → SsState) : Prop where
  cwd : ∀ j, (f' j).cwd = (f j).cwd
  rootPath : ∀ j, (f' j).rootPath = (f j).rootPath
  primary : (f' i).disk.entry = Function.update (f i).disk.entry ((f i).cwd ++ ws) x
  backup : ∀ b, IsBackup st i b →
    (f' b).disk.entry = Function.update (f b).disk.entry (replicaPlace (f b) ws) x
  others : ∀ j, j ≠ i → ¬ IsBackup st i j → (f' j).disk = (f j).disk

/-- The backups of a server are two other servers. -/
structure Backed (st : NsState) (i : Nat) : Prop where
  ne : ∀ b, IsBackup st i b → b ≠ i
  distinct : ∀ b, st.backupServer1 i = some b → st.backupServer2 i ≠ some b

/-- The replica of `ws` on one backup, if there is one, has become `x`. -/
def Follows (ws : List Text) (x : Option Entry) (backup : Option Nat) (f f' : Nat → SsState) :
    Prop :=
  match backup with
  | none => f' = f
  | some b => ∃ s, f' = Function.update f b s ∧ s.cwd = (f b).cwd ∧ s.rootPath = (f b).rootPath ∧
      s.disk.entry = Function.update (f b).disk.entry (replicaPlace (f b) ws) x

section Updates

variable {st : NsState} {i : Nat} {ws : List Text} {x : Option Entry} {backup : Option Nat}
  {f f' : Nat → SsState}

theorem Follows.other (h : Follows ws x backup f f') {j : Nat} (hj : backup ≠ some j) :
    f' j = f j := by
  cases backup with
  | none => rw [show f' = f from h]
  | some b =>
    obtain ⟨s, rfl, -⟩ := h
    apply Function.update_of_ne
    rintro rfl
    exact hj rfl

theorem Follows.entry (h : Follows ws x backup f f') {b : Nat} (hb : backup = some b) :
    (f' b).disk.entry = Function.update (f b).disk.entry (replicaPlace (f b) ws) x := by
  subst hb
  obtain ⟨s, rfl, -, -, hentry⟩ := h
  rwa [Function.update_self]

theorem Follows.folders (h : Follows ws x backup f f') (j : Nat) :
    (f' j).cwd = (f j).cwd ∧ (f' j).rootPath = (f j).rootPath := by
  by_cases hj : backup = some j
  · subst hj
    obtain ⟨s, rfl, hcwd, hroot, -⟩ := h
    rw [Function.update_self]
    exact ⟨hcwd, hroot⟩
  · rw [h.other hj]
    exact ⟨rfl, rfl⟩

/-- The server has changed first, and then each of its backups. -/
theorem Propagates.of_follows {g : Nat → SsState} {s : SsState} (hbacked : Backed st i)
    (hcwd : s.cwd = (f i).cwd) (hroot : s.rootPath = (f i).rootPath)
    (hentry : s.disk.entry = Function.update (f i).disk.entry ((f i).cwd ++ ws) x)
    (h₁ : Follows ws x (st.backupServer1 i) (Function.update f i s) g)
    (h₂ : Follows ws x (st.backupServer2 i) g f') : Propagates st i ws x f f' := by
  have hself : f' i = s := by
    rw [h₂.other (fun hb ↦ hbacked.ne i (.inr hb) rfl),
      h₁.other (fun hb ↦ hbacked.ne i (.inl hb) rfl), Function.update_self]
  have hfolders : ∀ j, (f' j).cwd = (f j).cwd ∧ (f' j).rootPath = (f j).rootPath := by
    intro j
    by_cases hj : j = i
    · subst hj
      rw [hself]
      exact ⟨hcwd, hroot⟩
    · rw [(h₂.folders j).1, (h₂.folders j).2, (h₁.folders j).1, (h₁.folders j).2,
        Function.update_of_ne hj]
      exact ⟨rfl, rfl⟩
  refine ⟨fun j ↦ (hfolders j).1, fun j ↦ (hfolders j).2, ?_, fun b hb ↦ ?_, fun j hj hb ↦ ?_⟩
  · rw [hself]
    exact hentry
  · have hne := hbacked.ne b hb
    obtain hb | hb := hb
    · rw [h₂.other (hbacked.distinct b hb), h₁.entry hb, Function.update_of_ne hne]
    · have hold : g b = f b := by
        rw [h₁.other (fun hb' ↦ hbacked.distinct b hb' hb), Function.update_of_ne hne]
      rw [h₂.entry hb, hold]
  · rw [h₂.other (fun h ↦ hb (.inr h)), h₁.other (fun h ↦ hb (.inl h)), Function.update_of_ne hj]

end Updates

/-! ### Commands on entries and their backups -/

/-- A command that was repeated for one backup has changed its replica. -/
private theorem Fleet.follows_entry {f f' : Fleet} {v : Verb} {ws : List Text}
    {backup : Option Nat} {tr : List NsEvent} {fs fs' : FileSystem} {place : List Text}
    {root : Text} (hv : IsEntry v) (hws : Canonical ws)
    (hfits : (v.name ++ lit "b " ++ pathText ws).length < bufferSize)
    (hroot : [root] <+: ws) (hdir : v.call.makes = true → [root] <+: ws.dropLast)
    (heffect : v.call.Effect (place ++ ws) fs fs')
    (hbackup : ∀ b, backup = some b → f'.up b = true ∧ Proper (f.servers b) ∧
      (replicaPath (rootName (f.servers b)) (pathText ws)).length < maxPathSize ∧
      AgreeBelow root place (replicaPlace (f.servers b) []) fs (f.servers b).disk)
    (hsends : SendsTo (backupCommand v.name (pathText ws)) backup tr)
    (h : outages.Accepts f tr f') :
    Ebbs f f' ∧ Follows ws v.call.leaves backup f.servers f'.servers := by
  obtain ⟨rfl, hfades⟩ | ⟨b, s, rfl, hobeys, hfades⟩ := Fleet.follows
    (copyPrograms_backupCommand hv hfits) (fun b hb ↦ (hbackup b hb).1)
    (fun b out s _ hs ↦ hs.unanswered hv hfits) hsends h
  · exact ⟨hfades.toEbbs, hfades.servers⟩
  · obtain ⟨-, hproper, hreplica, hagree⟩ := hbackup b rfl
    obtain ⟨hcwd, hrootPath, hdone | hfailed⟩ := hobeys.repeated hv hws hproper hfits hreplica
    · exact ⟨hfades.ebbs, s, hfades.servers, hcwd, hrootPath, hdone.entry⟩
    · -- The replica is like the original, so the call could not fail.
      obtain ⟨gs, hgs⟩ := hagree.effect hroot hdir heffect
      have hplace : replicaPlace (f.servers b) [] ++ ws = replicaPlace (f.servers b) ws := by
        simp [replicaPlace]
      rw [hplace] at hgs
      exact absurd hgs (hfailed gs)

/-- A confirmed command on an entry has changed the entry and its replicas. -/
theorem Fleet.propagates_entry {f f' : Fleet} {st : NsState} {i : Nat} {v : Verb}
    {ws : List Text} {bytes msg : Text} {sent ok : Bool} {tr₁ tr₂ : List NsEvent} (hv : IsEntry v)
    (hws : Canonical ws) (hfits : (v.name ++ lit "b " ++ pathText ws).length < bufferSize)
    (hbacked : Backed st i) (hquiet : ∀ j, f.answers j = [])
    (hroot : [rootName (f.servers i)] <+: ws)
    (hdir : v.call.makes = true → [rootName (f.servers i)] <+: ws.dropLast)
    (hbackup : ∀ b, IsBackup st i b → f'.up b = true ∧ Proper (f.servers b) ∧
      (replicaPath (rootName (f.servers b)) (pathText ws)).length < maxPathSize ∧
      AgreeBelow (rootName (f.servers i)) (f.servers i).cwd (replicaPlace (f.servers b) [])
        (f.servers i).disk (f.servers b).disk)
    (hyes : couldNot (cstr bytes) = false)
    (hsends₁ : SendsTo (backupCommand v.name (pathText ws)) (st.backupServer1 i) tr₁)
    (hsends₂ : SendsTo (backupCommand v.name (pathText ws)) (st.backupServer2 i) tr₂)
    (h : outages.Accepts f (⟨.forward i (commandLine v.name ws), sent⟩ ::
      ⟨.recvServer i, some bytes⟩ :: ⟨.sendClient msg, ok⟩ :: (tr₁ ++ tr₂)) f') :
    Ebbs f f' ∧ Propagates st i ws v.call.leaves f.servers f'.servers ∧
      v.call.Effect ((f.servers i).cwd ++ ws) (f.servers i).disk (f'.servers i).disk := by
  obtain ⟨s, u, hobeys, hfades, h₁⟩ := Fleet.exchange (hquiet i) (copyPrograms_commandLine hv)
    (fun out s hs ↦ (handles_entry hv hws hs.handles).imp fun _ ⟨_, hout, _⟩ ↦ hout) h
  obtain ⟨reply, done, hreply, hdone, hcwd, hrootPath, heffect⟩ := handles_entry hv hws hobeys.handles
  cases hreply
  rw [couldNot, startsWith_cstr (by decide)] at hyes
  rw [couldNot, hyes] at hdone
  obtain rfl : done = true := by simpa using hdone.symm
  simp only [if_true] at heffect
  obtain ⟨u₁, u₂, hs₁, hclient, h₂⟩ := h₁.cons
  cases hclient
  have hfades₁ := hfades.trans (.of_silent hs₁)
  obtain ⟨u₃, hb₁, hb₂⟩ := h₂.append
  have hserver : ∀ b, IsBackup st i b → u₁.servers b = f.servers b := by
    intro b hb
    rw [hfades₁.servers]
    exact Function.update_of_ne (hbacked.ne b hb) _ _
  obtain ⟨hebbs₁, hfollows₁⟩ := Fleet.follows_entry hv hws hfits hroot hdir heffect
    (fun b hb ↦ by
      obtain ⟨hup, hrest⟩ := hbackup b (.inl hb)
      rw [hserver b (.inl hb)]
      exact ⟨Fleet.up_of_accepts hb₂ b hup, hrest⟩) hsends₁ hb₁
  obtain ⟨hebbs₂, hfollows₂⟩ := Fleet.follows_entry hv hws hfits hroot hdir heffect
    (fun b hb ↦ by
      rw [hfollows₁.other (fun hb' ↦ hbacked.distinct b hb' hb), hserver b (.inr hb)]
      exact hbackup b (.inr hb)) hsends₂ hb₂
  rw [hfades₁.servers] at hfollows₁
  refine ⟨(hfades₁.ebbs.trans hebbs₁).trans hebbs₂,
    .of_follows hbacked hcwd hrootPath heffect.entry hfollows₁ hfollows₂, ?_⟩
  rw [hfollows₂.other (fun hb ↦ hbacked.ne i (.inr hb) rfl),
    hfollows₁.other (fun hb ↦ hbacked.ne i (.inl hb) rfl)]
  simpa [Fleet.store] using heffect

/-! ### What the naming server has done -/

/-- A command on an entry that server `i` has confirmed: its trie and the cache have followed,
and the command was repeated for the backups. -/
structure Confirmation (change : EntryChange) (st : NsState) (line command path : Text) (i : Nat)
    (bytes : Text) (tr : List NsEvent) (st' : NsState) : Prop where
  notTop : isTopPath change.lookup = false
  resolved : st.resolve change.lookup = some i
  trie : ∃ n m, st.roots[i]? = some n ∧ change.trieOp n = some m ∧ st'.roots = st.roots.set i m
  cache : st'.cache = change.cacheOp (st.cacheAfter change.lookup) i
  trace : ∃ t t₁ t₂ ok, OffLink t ∧
    tr = t ++ (⟨.forward i line, true⟩ :: ⟨.recvServer i, some bytes⟩ ::
      ⟨.sendClient (cstr bytes), ok⟩ :: (t₁ ++ t₂)) ∧
    SendsTo (backupCommand command path) (st.backupServer1 i) t₁ ∧
    SendsTo (backupCommand command path) (st.backupServer2 i) t₂

private theorem not_received {t : List NsEvent} (h : OffLink t) {i : Nat} {bytes : Text} :
    (⟨.recvServer i, some bytes⟩ : NsEvent) ∉ t := by
  intro he
  cases h _ he

private theorem received_exchange {t : List NsEvent} {i j : Nat} {bytes : Text} {sent ok : Bool}
    {line msg : Text} {r : Option Text} (ht : OffLink t)
    (h : (⟨.recvServer i, some bytes⟩ : NsEvent) ∈
      t ++ [⟨.forward j line, sent⟩, ⟨.recvServer j, r⟩, ⟨.sendClient msg, ok⟩]) :
    j = i ∧ r = some bytes := by
  simp only [List.mem_append, List.mem_cons, List.not_mem_nil, or_false] at h
  obtain h | h | h | h := h
  · exact absurd h (not_received ht)
  · cases h
  · cases h
    exact ⟨rfl, rfl⟩
  · cases h

/-- A run with an answer that confirms the command. -/
theorem EntryRun.confirmed {change : EntryChange} {st st' : NsState}
    {line command path bytes : Text} {tr : List NsEvent} {i : Nat}
    (h : EntryRun change st line command path tr (some st'))
    (hmem : (⟨.recvServer i, some bytes⟩ : NsEvent) ∈ tr) (hyes : couldNot (cstr bytes) = false) :
    Confirmation change st line command path i bytes tr st' := by
  generalize hout : some st' = out at h
  cases h with
  | invalid _ => exact absurd hmem (not_received (offLink_sendClient _ _))
  | overruns _ _ => cases hout
  | overlong _ _ _ => cases hout
  | unknown _ hl | down _ hl _ =>
    exact absurd hmem (not_received ((exec_lookup hl).1.offLink.append (offLink_sendClient _ _)))
  | unsent _ hl =>
    obtain hmem | hmem := List.mem_append.mp hmem
    · exact absurd hmem (not_received (exec_lookup hl).1.offLink)
    · cases List.mem_singleton.mp hmem
  | unanswered _ hl =>
    obtain ⟨-, hr⟩ := received_exchange (exec_lookup hl).1.offLink hmem
    cases hr
  | refused _ hl _ hno =>
    obtain ⟨-, hr⟩ := received_exchange (exec_lookup hl).1.offLink hmem
    cases hr
    rw [hno] at hyes
    cases hyes
  | @carriedOut t t₂ j st₁ st₂ bytes' ok htop hl hlen hcould hrep =>
    obtain ⟨hp, hk, hf, hc⟩ := exec_lookup hl
    obtain ⟨hreplicates, st₃, hst₃, hf₃, hc₃⟩ := exec_replicateCommand hrep
    cases hst₃
    have hexchange : (⟨.recvServer i, some bytes⟩ : NsEvent) ∉ t₂ := by
      intro he
      obtain he | ⟨b, m, -, he⟩ := hreplicates _ he <;> cases he
    obtain ⟨rfl, hr⟩ := received_exchange hp.offLink
      ((List.mem_append.mp hmem).resolve_right hexchange)
    cases hr
    obtain ⟨n, m, hn, hm, hroots, hcache⟩ := updateRoot_eq_some hout.symm
    rw [roots_of_frozen hf₃] at hn hroots
    obtain ⟨t₃, t₄, rfl, hs₁, hs₂⟩ := sendsTo_of_replicateCommand hrep
    have hroots₁ : { st₁ with cache := change.cacheOp st₁.cache j }.roots = st.roots :=
      roots_of_frozen hf
    rw [hroots₁] at hn hroots
    refine ⟨htop, hk.symm, ⟨n, m, hn, hm, hroots⟩, ?_, t, t₃, t₄, ok, hp.offLink, ?_, ?_, ?_⟩
    · rw [hcache, hc₃, hc]
    · simp
    · rw [← backupServer1_of_frozen hf]
      exact hs₁
    · rw [← backupServer2_of_frozen hf]
      exact hs₂

end NetworkFileSystem.Cluster
