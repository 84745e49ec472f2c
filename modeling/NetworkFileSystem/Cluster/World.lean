import NetworkFileSystem.Cluster.Export
import NetworkFileSystem.Cluster.Link

/-!
# Naming server, connections and disks

`storage_server.c:355–596`, `helper.c:144–293`. The connections together with the disks
of the storage servers: a server takes the commands of its connection in order, works on
its disk, and sends what the branch sends. All servers are up. Commands for backups work
below the folder for backups and leave the exported folder alone; the answer to a
forwarded command tells what has become of the disk.
-/

namespace NetworkFileSystem.Cluster

open Base Protocol Trie Naming Storage

/-- The connections and the storage servers behind them. -/
structure World where
  links : Links
  servers : Nat → SsState

/-- Server `i` takes the first command of its connection. -/
def World.Takes (i : Nat) (w w' : World) : Prop :=
  ∃ k msg rest out s, (w.links i).inbox = (k, msg) :: rest ∧ (w.servers i).Handles msg out s ∧
    w' = ⟨Function.update w.links i { w.links i with
      inbox := rest, outbox := (w.links i).outbox ++ out.map (Prod.mk k) },
      Function.update w.servers i s⟩

/-- Every ping is answered. -/
def AllUp : (o : NsOp) → o.Res → Prop
  | .ping _, r => r = PingResult.up
  | _, _ => True

/-- The storage servers with their disks, as the environment of the naming server. -/
def storage : Environment NsOp NsOp.Res World where
  respond := fun o r w w' ↦
    Links.respond o r w.links w'.links ∧ w'.servers = w.servers ∧ AllUp o r
  silent := fun w w' ↦ ∃ i, w.Takes i w'

/-! ### Commands -/

/-- `./c₁/…/cₖ` with names that a command line can carry. -/
structure Canonical (ws : List Text) : Prop extends Plain ws where
  ne_nil : ws ≠ []
  noBlank : ∀ w ∈ ws, blank ∉ w

theorem prefix_of_head {w : Text} {ws : List Text} (h : ws.head? = some w) : [w] <+: ws := by
  obtain ⟨ws', rfl⟩ := List.head?_eq_some_iff.mp h
  exact ⟨ws', rfl⟩

theorem head_of_singleton {w : Text} {ws : List Text} (h : [w] <+: ws) : ws.head? = some w := by
  obtain ⟨ws', rfl⟩ := h
  rfl

/-- The branches for the four commands on entries. -/
def IsEntry (v : Verb) : Prop := v = .mkdir ∨ v = .touch ∨ v = .rm ∨ v = .rmdir

/-- The line of a command on a path. -/
def commandLine (verb : Text) (ws : List Text) : Text := verb ++ blank :: pathText ws

/-- A command that a backup gets. -/
def IsBackupCommand (msg : Text) : Prop :=
  ∃ (v : Verb) (ws : List Text), v.isBackup = true ∧ Canonical ws ∧
    msg = clip bufferSize (commandLine v.name ws)

variable {ws : List Text} {v : Verb}

theorem Canonical.fileName (h : Canonical ws) : ∀ w ∈ ws, FileName w :=
  fun w hw ↦ (h.names w hw).toFileName

/-- The words of a command whose path may be cut off. -/
private theorem words_command {verb path : Text} (hverb : blank ∉ verb) (hne : verb ≠ [])
    (hpath : blank ∉ path) (hpne : path ≠ []) : words (verb ++ blank :: path) = [verb, path] := by
  rw [words, tokens_append_cons, tokens_of_notMem hverb hne, tokens_of_notMem hpath hpne]
  rfl

theorem words_commandLine {verb : Text} (hverb : blank ∉ verb) (hne : verb ≠ [])
    (h : Canonical ws) : words (commandLine verb ws) = [verb, pathText ws] :=
  words_command hverb hne (notMem_pathText (by decide) h.noBlank) (by simp [pathText, lit])

private theorem verb_name (v : Verb) : blank ∉ v.name ∧ v.name ≠ [] ∧ v.name.length ≤ 14 := by
  cases v <;> decide

private theorem branch_of_isEntry (hv : IsEntry v) (t : Text) :
    branch (v.name ++ blank :: t) = some v := by
  obtain rfl | rfl | rfl | rfl := hv <;> rfl

private theorem clip_command {verb path : Text} (h : verb.length + 1 < bufferSize) :
    clip bufferSize (verb ++ blank :: path) =
      verb ++ blank :: path.take (bufferSize - 1 - verb.length - 1) := by
  have hb : bufferSize - 1 - verb.length = bufferSize - 1 - verb.length - 1 + 1 := by omega
  rw [clip, List.take_append, List.take_of_length_le (by omega), hb, List.take_succ_cons]
  rfl

/-! ### Backups -/

/-- A path for backups leads below the folder for backups, also if it is cut off. -/
theorem prefix_backupPath {root : Text} (hroot : FileName root) (h : Canonical ws) (m : Nat)
    (cwd : List Text) :
    cwd ++ [lit "backupfolderforss"] <+:
      resolveFrom cwd (backupPath (pathText [root]) ((pathText ws).take m)) := by
  obtain ⟨below, hbelow⟩ : ∃ t, pathText ws = lit "./" ++ t := by
    obtain ⟨w, ws', rfl⟩ := List.exists_cons_of_ne_nil h.ne_nil
    exact ⟨w ++ ws'.flatMap (slash :: ·), by simp [pathText, lit, slash]⟩
  have htokens : tokens slash below = ws := by
    have htok := h.tokens
    rw [hbelow, show lit "./" ++ below = lit "." ++ slash :: below from rfl, tokens_append_cons,
      show tokens slash (lit ".") = [lit "."] by decide] at htok
    exact (List.cons.inj htok).2
  -- The part behind the folder for backups, as far as it fits.
  let u := (root ++ slash :: below.take (m - 2)).take 2027
  have hpath : backupPath (pathText [root]) ((pathText ws).take m) =
      lit "./backupfolderforss" ++ slash :: u := by
    have hdrop : ((pathText ws).take m).drop 2 = below.take (m - 2) := by
      rw [List.drop_take, hbelow]
      rfl
    have hname : (pathText [root]).drop 2 = root := by simp [pathText, lit]
    have hsplit : backupFolder ++ lit "/" ++ root ++ lit "/" ++ below.take (m - 2) =
        lit "./backupfolderforss/" ++ (root ++ slash :: below.take (m - 2)) := by
      simp [backupFolder, lit, slash]
    rw [backupPath, hdrop, hname, clip, hsplit, List.take_append, List.take_of_length_le (by decide)]
    simp [u, lit, slash, maxPathSize]
  have hresolve : resolveFrom cwd (backupPath (pathText [root]) ((pathText ws).take m)) =
      (tokens slash u).foldl resolveStep (cwd ++ [lit "backupfolderforss"]) := by
    rw [hpath, resolveFrom, if_neg (by simp [lit, slash]), tokens_append_cons,
      show tokens slash (lit "./backupfolderforss") = [lit ".", lit "backupfolderforss"] by decide]
    rfl
  rw [hresolve]
  by_cases hlen : root.length < 2027
  · have hu : u = root ++ slash :: (below.take (m - 2)).take (2026 - root.length) := by
      simp only [u]
      rw [List.take_append, List.take_of_length_le (by omega),
        show 2027 - root.length = 2026 - root.length + 1 by omega, List.take_succ_cons]
    have hup : lit ".." ∉ (tokens slash ((below.take (m - 2)).take (2026 - root.length))).dropLast := by
      intro hmem
      rw [List.take_take] at hmem
      have htok := mem_tokens_of_mem_dropLast (t := below.drop (min (2026 - root.length) (m - 2))) hmem
      rw [List.take_append_drop, htokens] at htok
      exact (h.names _ htok).ne_dots rfl
    rw [hu, tokens_append_cons, tokens_of_notMem hroot.noSlash hroot.ne_nil, List.singleton_append,
      List.foldl_cons]
    have hstep : resolveStep (cwd ++ [lit "backupfolderforss"]) root =
        cwd ++ [lit "backupfolderforss"] ++ [root] := by
      simp [resolveStep, hroot.ne_dot, hroot.ne_dots]
    rw [hstep]
    have hpre := prefix_foldl_resolveStep_of_last hup (cwd ++ [lit "backupfolderforss"] ++ [root])
    rwa [List.dropLast_concat] at hpre
  · have hu : u = root.take 2027 := by
      simp only [u]
      rw [List.take_append_of_le_length (by omega)]
    have hlen' : u.length = 2027 := by
      rw [hu, List.length_take]
      omega
    have hslash : slash ∉ u := by
      rw [hu]
      exact fun hmem ↦ hroot.noSlash (List.mem_of_mem_take hmem)
    have hne : ∀ t : Text, t.length ≤ 2 → u ≠ t := by
      rintro t ht rfl
      omega
    rw [tokens_of_notMem hslash (hne [] (by simp))]
    simp [resolveStep, hne (lit ".") (by decide), hne (lit "..") (by decide)]

/-- The root is one folder, and not the one for backups. -/
structure Proper (s : SsState) : Prop where
  root : s.rootPath = pathText [rootName s]
  name : FileName (rootName s)
  ne_backup : rootName s ≠ lit "backupfolderforss"

theorem Proper.of_rootPath {s s' : SsState} (hs : Proper s) (h : s'.rootPath = s.rootPath) :
    Proper s' := by
  have hname : rootName s' = rootName s := by rw [rootName, h, rootName]
  refine ⟨?_, ?_, ?_⟩
  · rw [h, hname]
    exact hs.root
  · rw [hname]
    exact hs.name
  · rw [hname]
    exact hs.ne_backup

/-- The exported folder is untouched. -/
structure KeepsExport (s s' : SsState) : Prop where
  cwd : s'.cwd = s.cwd
  rootPath : s'.rootPath = s.rootPath
  entries : ∀ p, [rootName s] <+: p → s'.disk.entry (s.cwd ++ p) = s.disk.entry (s.cwd ++ p)

namespace KeepsExport

variable {s s' s'' : SsState}

theorem refl (s : SsState) : KeepsExport s s := ⟨rfl, rfl, fun _ _ ↦ rfl⟩

theorem rootName (h : KeepsExport s s') : rootName s' = Cluster.rootName s := by
  rw [Cluster.rootName, h.rootPath, Cluster.rootName]

theorem trans (h : KeepsExport s s') (h' : KeepsExport s' s'') : KeepsExport s s'' := by
  refine ⟨h'.cwd.trans h.cwd, h'.rootPath.trans h.rootPath, fun p hp ↦ ?_⟩
  rw [← h.entries p hp, ← h.cwd]
  exact h'.entries p (h.rootName ▸ hp)

theorem proper (h : KeepsExport s s') (hs : Proper s) : Proper s' := hs.of_rootPath h.rootPath

theorem exported (h : KeepsExport s s') : exported s' = exported s := by
  ext p
  unfold Cluster.exported
  simp only [Set.mem_ofPred_eq, h.rootName, h.cwd]
  constructor
  · rintro ⟨hp, he⟩
    exact ⟨hp, h.entries p hp ▸ he⟩
  · rintro ⟨hp, he⟩
    exact ⟨hp, (h.entries p hp).symm ▸ he⟩

end KeepsExport

variable {s s' : SsState} {msg : Text} {out : List Text}

/-- A command for a backup is not answered and leaves the exported folder alone. -/
theorem IsBackupCommand.handles (hb : IsBackupCommand msg) (h : s.Handles msg out s') :
    out = [] ∧ (Proper s → KeepsExport s s') := by
  obtain ⟨v, ws, hv, hws, rfl⟩ := hb
  obtain ⟨hblank, hne, hlen⟩ := verb_name v
  rw [commandLine, clip_command (by simp only [bufferSize]; omega)] at h
  generalize hm : bufferSize - 1 - v.name.length - 1 = m at h
  have hm2 : 2 ≤ m := by
    simp only [bufferSize] at hm
    omega
  have hwords : words (v.name ++ blank :: (pathText ws).take m) =
      [v.name, (pathText ws).take m] := by
    refine words_command hblank hne (fun hb ↦ ?_) ?_
    · exact notMem_pathText (by decide) hws.noBlank (List.mem_of_mem_take hb)
    · rw [pathText, show lit "." = [46] from rfl, List.singleton_append]
      simp
      omega
  have hbranch : branch (v.name ++ blank :: (pathText ws).take m) = some v :=
    branch_of_isBackup hv _
  obtain ⟨v', path, ok, hv', hpath, hrespond, hcwd, hroot, buffer2, -, -, rfl⟩ := h.spec
  rw [hbranch, Option.some.injEq] at hv'
  subst hv'
  rw [hwords] at hpath
  obtain rfl : (pathText ws).take m = path := by simpa using hpath
  refine ⟨replies_of_isBackup hbranch hv _ _, fun hproper ↦ ⟨hcwd, hroot, fun p hp ↦ ?_⟩⟩
  cases ok with
  | false =>
    rw [show s'.disk = s.disk from hrespond]
  | true =>
    refine Call.Effect.other hrespond (fun heq ↦ hproper.ne_backup ?_)
    have hpre := prefix_backupPath hproper.name hws m s.cwd
    rw [Verb.target, if_pos hv, hproper.root] at heq
    rw [← heq, List.prefix_append_right_inj] at hpre
    obtain ⟨q, rfl⟩ := hp
    exact (List.cons_prefix_cons.mp hpre).1.symm

/-- A command on an entry is answered once, and the answer tells whether the call succeeded. -/
theorem handles_entry (hv : IsEntry v) (hws : Canonical ws)
    (h : s.Handles (commandLine v.name ws) out s') :
    ∃ reply ok, out = [reply] ∧ couldNot reply = !ok ∧ s'.cwd = s.cwd ∧ s'.rootPath = s.rootPath ∧
      if ok then v.call.Effect (s.cwd ++ ws) s.disk s'.disk else s'.disk = s.disk := by
  obtain ⟨hblank, hne, -⟩ := verb_name v
  have hbranch := branch_of_isEntry hv (pathText ws)
  obtain ⟨v', path, ok, hv', hpath, hrespond, hcwd, hroot, buffer2, hok, hbuf, rfl⟩ := h.spec
  rw [commandLine, hbranch, Option.some.injEq] at hv'
  subst hv'
  rw [words_commandLine hblank hne hws] at hpath
  obtain rfl : pathText ws = path := by simpa using hpath
  have hbackup : v.isBackup = false := by obtain rfl | rfl | rfl | rfl := hv <;> rfl
  have hreplies : replies (commandLine v.name ws) buffer2 [] = [buffer2] := by
    have hping : startsWith (lit "ping") (commandLine v.name ws) = false := by
      obtain rfl | rfl | rfl | rfl := hv <;> exact startsWith_cons_ne (by decide)
    rw [replies, hping, commandLine, hbranch]
    obtain rfl | rfl | rfl | rfl := hv <;> simp [message, hbuf, Verb.isBackup]
  refine ⟨buffer2, ok, hreplies, hok, hcwd, hroot, ?_⟩
  simp only [fileSystem, Verb.target, hbackup, Bool.false_eq_true, if_false,
    resolveFrom_pathText hws.fileName] at hrespond
  exact hrespond

/-! ### Connections at rest -/

/-- Only commands for backups wait, and no answer is there. -/
structure Resting (l : Link) : Prop where
  isOpen : l.isOpen = true
  outbox : l.outbox = []
  inbox : ∀ x ∈ l.inbox, IsBackupCommand x.2

/-- All connections are at rest. -/
def World.Rests (w : World) : Prop := ∀ i, Resting (w.links i)

/-- No exported folder is touched. -/
def World.Keeps (w w' : World) : Prop :=
  ∀ i, Proper (w.servers i) → KeepsExport (w.servers i) (w'.servers i)

theorem World.Keeps.trans {w w' w'' : World} (h : w.Keeps w') (h' : w'.Keeps w'') : w.Keeps w'' :=
  fun i hi ↦ (h i hi).trans (h' i ((h i hi).proper hi))

theorem World.Keeps.refl (w : World) : w.Keeps w := fun _ _ ↦ .refl _

theorem World.Rests.takes {w w' : World} (h : w.Rests) {i : Nat} (ht : w.Takes i w') :
    w'.Rests ∧ w.Keeps w' := by
  obtain ⟨k, msg, rest, out, s, hin, hhandles, rfl⟩ := ht
  obtain ⟨rfl, hkeeps⟩ := ((h i).inbox (k, msg) (by simp [hin])).handles hhandles
  constructor
  · intro j
    by_cases hj : j = i
    · subst hj
      simp only [Function.update_self]
      refine ⟨(h j).isOpen, ?_, fun x hx ↦ (h j).inbox x (by simp [hin, show x ∈ rest from hx])⟩
      simp [(h j).outbox]
    · simpa only [Function.update_of_ne hj] using h j
  · intro j hj
    by_cases hji : j = i
    · subst hji
      simpa only [Function.update_self] using hkeeps hj
    · simpa only [Function.update_of_ne hji] using KeepsExport.refl _

/-- The events that leave all connections at rest. -/
def Restful (e : NsEvent) : Prop :=
  e.1.isOffLink = true ∨ ∃ b m, IsBackupCommand m ∧ e.1 = .replicate b m

private theorem World.Rests.respond {w w' : World} (h : w.Rests) {o : NsOp} {r : o.Res}
    (ho : o.isOffLink = true ∨ ∃ b m, IsBackupCommand m ∧ o = .replicate b m)
    (hr : storage.respond o r w w') : w'.Rests ∧ w.Keeps w' := by
  obtain ⟨hlinks, hservers, -⟩ := hr
  have hkeeps : w.Keeps w' := by
    intro i _
    rw [hservers]
    exact .refl _
  refine ⟨?_, hkeeps⟩
  obtain ho | ⟨b, m, hm, rfl⟩ := ho
  · have heq : w'.links = w.links := by
      cases o with
      | ping i | sendClient m | sendAck ip port m => exact hlinks
      | _ => cases ho
    intro i
    rw [heq]
    exact h i
  · obtain ⟨l, hsend, heq⟩ := hlinks
    rw [Link.send, if_pos (h b).isOpen] at hsend
    obtain ⟨-, rfl⟩ := hsend
    intro i
    rw [heq]
    by_cases hi : i = b
    · subst hi
      rw [Function.update_self]
      refine ⟨(h i).isOpen, (h i).outbox, fun x hx ↦ ?_⟩
      obtain hx | hx := List.mem_append.mp hx
      · exact (h i).inbox x hx
      · exact List.mem_singleton.mp hx ▸ hm
    · rw [Function.update_of_ne hi]
      exact h i

theorem World.Rests.silent {w w' : World} (h : w.Rests)
    (hs : Relation.ReflTransGen storage.silent w w') : w'.Rests ∧ w.Keeps w' := by
  induction hs with
  | refl => exact ⟨h, .refl _⟩
  | tail _ hstep ih =>
    obtain ⟨i, ht⟩ := hstep
    obtain ⟨hrest, hkeeps⟩ := ih.1.takes ht
    exact ⟨hrest, ih.2.trans hkeeps⟩

theorem World.Rests.accepts {w w' : World} {tr : List NsEvent} (h : w.Rests)
    (htr : ∀ e ∈ tr, Restful e) (ha : storage.Accepts w tr w') : w'.Rests ∧ w.Keeps w' := by
  induction ha with
  | nil => exact ⟨h, .refl _⟩
  | silent hs _ ih =>
    obtain ⟨i, ht⟩ := hs
    obtain ⟨hrest, hkeeps⟩ := h.takes ht
    obtain ⟨hlast, hkeeps'⟩ := ih hrest htr
    exact ⟨hlast, hkeeps.trans hkeeps'⟩
  | event hr _ ih =>
    obtain ⟨hrest, hkeeps⟩ := h.respond (htr _ List.mem_cons_self) hr
    obtain ⟨hlast, hkeeps'⟩ := ih hrest (fun e he ↦ htr e (by simp [he]))
    exact ⟨hlast, hkeeps.trans hkeeps'⟩

/-! ### Exchanges -/

/-- Server `i` has been sent `msg` in the world `w₀`: the command waits behind commands for
backups, or it has been carried out and its answers are there. -/
structure World.Awaits (w₀ : World) (i : Nat) (msg : Text) (w : World) : Prop where
  isOpen : (w.links i).isOpen = true
  others : ∀ j, j ≠ i → Resting (w.links j)
  keeps : ∀ j, j ≠ i → Proper (w₀.servers j) → KeepsExport (w₀.servers j) (w.servers j)
  stage : ((w.links i).outbox = [] ∧ (∃ pre k, (w.links i).inbox = pre ++ [(k, msg)] ∧
      ∀ x ∈ pre, IsBackupCommand x.2) ∧
      (Proper (w₀.servers i) → KeepsExport (w₀.servers i) (w.servers i))) ∨
    ((w.links i).inbox = [] ∧ ∃ k out s, s.Handles msg out (w.servers i) ∧
      (Proper (w₀.servers i) → KeepsExport (w₀.servers i) s) ∧
      (w.links i).outbox = out.map (Prod.mk k))

theorem World.Awaits.takes {w₀ w w' : World} {i j : Nat} (h : World.Awaits w₀ i msg w)
    (ht : w.Takes j w') : World.Awaits w₀ i msg w' := by
  obtain ⟨k, m, rest, out, s, hin, hhandles, rfl⟩ := ht
  by_cases hj : j = i
  · subst hj
    refine ⟨?_, fun x hx ↦ ?_, fun x hx hp ↦ ?_, ?_⟩
    · simp [h.isOpen]
    · simpa only [Function.update_of_ne hx] using h.others x hx
    · simpa only [Function.update_of_ne hx] using h.keeps x hx hp
    · simp only [Function.update_self]
      obtain ⟨hout, ⟨pre, k', hpre, hback⟩, hkeeps⟩ | ⟨hnil, -⟩ := h.stage
      · rw [hpre] at hin
        cases pre with
        | nil =>
          -- The command itself is taken.
          obtain ⟨hhead, rfl⟩ := List.cons.inj hin
          obtain ⟨rfl, rfl⟩ := Prod.mk.inj hhead
          exact .inr ⟨rfl, k', out, w.servers j, hhandles, hkeeps, by simp [hout]⟩
        | cons x pre =>
          obtain ⟨rfl, rfl⟩ := List.cons.inj hin
          obtain ⟨rfl, hx⟩ := (hback _ List.mem_cons_self).handles hhandles
          refine .inl ⟨by simp [hout], ⟨pre, k', rfl, fun y hy ↦ hback y (by simp [hy])⟩,
            fun hp ↦ (hkeeps hp).trans (hx ((hkeeps hp).proper hp))⟩
      · rw [hnil] at hin
        cases hin
  · have hrest := h.others j hj
    obtain ⟨rfl, hkeeps⟩ := (hrest.inbox (k, m) (by simp [hin])).handles hhandles
    have hij : i ≠ j := Ne.symm hj
    refine ⟨?_, fun x hx ↦ ?_, fun x hx hp ↦ ?_, ?_⟩
    · simpa only [Function.update_of_ne hij] using h.isOpen
    · by_cases hxj : x = j
      · subst hxj
        simp only [Function.update_self]
        exact ⟨hrest.isOpen, by simp [hrest.outbox],
          fun y hy ↦ hrest.inbox y (by simp [hin, show y ∈ rest from hy])⟩
      · simpa only [Function.update_of_ne hxj] using h.others x hx
    · by_cases hxj : x = j
      · subst hxj
        simp only [Function.update_self]
        exact (h.keeps x hx hp).trans (hkeeps ((h.keeps x hx hp).proper hp))
      · simpa only [Function.update_of_ne hxj] using h.keeps x hx hp
    · simpa only [Function.update_of_ne hij] using h.stage

theorem World.Awaits.silent {w₀ w w' : World} {i : Nat} (h : World.Awaits w₀ i msg w)
    (hs : Relation.ReflTransGen storage.silent w w') : World.Awaits w₀ i msg w' := by
  induction hs with
  | refl => exact h
  | tail _ hstep ih =>
    obtain ⟨j, ht⟩ := hstep
    exact ih.takes ht

theorem World.Rests.forward {w w' : World} (h : w.Rests) {i : Nat} {ok : Bool}
    (hr : storage.respond (.forward i msg) ok w w') : ok = true ∧ World.Awaits w i msg w' := by
  obtain ⟨⟨l, hsend, hlinks⟩, hservers, -⟩ := hr
  rw [Link.send, if_pos (h i).isOpen] at hsend
  obtain ⟨hok, rfl⟩ := hsend
  refine ⟨hok, ?_, fun j hj ↦ ?_, fun j _ _ ↦ ?_, .inl ⟨?_, ?_, fun _ ↦ ?_⟩⟩
  · simp [hlinks, (h i).isOpen]
  · rw [hlinks, Function.update_of_ne hj]
    exact h j
  · rw [hservers]
    exact .refl _
  · simp [hlinks, (h i).outbox]
  · exact ⟨(w.links i).inbox, (w.links i).sent + 1, by simp [hlinks], (h i).inbox⟩
  · rw [hservers]
    exact .refl _

/-- The answer to a command on an entry is read, and the connections are at rest again. -/
theorem World.Awaits.receive {w₀ w w' : World} {i : Nat} {r : Option Text} (hv : IsEntry v)
    (hws : Canonical ws) (h : World.Awaits w₀ i (commandLine v.name ws) w)
    (hr : storage.respond (.recvServer i) r w w') :
    w'.Rests ∧ ∃ reply s, r = some reply ∧ s.Handles (commandLine v.name ws) [reply] (w'.servers i) ∧
      (Proper (w₀.servers i) → KeepsExport (w₀.servers i) s) ∧
      ∀ j, j ≠ i → Proper (w₀.servers j) → KeepsExport (w₀.servers j) (w'.servers j) := by
  obtain ⟨⟨l, hrecv, hlinks⟩, hservers, -⟩ := hr
  obtain ⟨k, bytes, rest, hout, rfl, rfl⟩ | ⟨hclosed, -⟩ := hrecv
  · obtain ⟨hnone, -⟩ | ⟨hin, k', out, s, hhandles, hkeeps, hanswers⟩ := h.stage
    · rw [hnone] at hout
      cases hout
    · obtain ⟨reply, ok, rfl, -⟩ := handles_entry hv hws hhandles
      rw [hanswers] at hout
      obtain ⟨hhead, rfl⟩ := List.cons.inj hout
      obtain ⟨rfl, rfl⟩ := Prod.mk.inj hhead
      refine ⟨fun j ↦ ?_, reply, s, rfl, by rw [hservers]; exact hhandles, hkeeps,
        fun j hj hp ↦ by rw [hservers]; exact h.keeps j hj hp⟩
      rw [hlinks]
      by_cases hj : j = i
      · subst hj
        rw [Function.update_self]
        exact ⟨h.isOpen, rfl, by simp [hin]⟩
      · rw [Function.update_of_ne hj]
        exact h.others j hj
  · rw [h.isOpen] at hclosed
    cases hclosed

/-- A forwarded command and its answer, seen from before and behind. -/
theorem World.Rests.exchange {w w' : World} {i : Nat} {sent : Bool} {r : Option Text}
    {tr : List NsEvent} (h : w.Rests) (hv : IsEntry v) (hws : Canonical ws)
    (ha : storage.Accepts w (⟨.forward i (commandLine v.name ws), sent⟩ :: ⟨.recvServer i, r⟩ :: tr) w') :
    ∃ u, storage.Accepts u tr w' ∧ u.Rests ∧
      (∀ j, j ≠ i → Proper (w.servers j) → KeepsExport (w.servers j) (u.servers j)) ∧
      ∃ reply s, r = some reply ∧ s.Handles (commandLine v.name ws) [reply] (u.servers i) ∧
        (Proper (w.servers i) → KeepsExport (w.servers i) s) := by
  obtain ⟨u₁, u₂, hs₁, hr₁, ha₁⟩ := ha.cons
  obtain ⟨hrest₁, hkeeps₁⟩ := h.silent hs₁
  obtain ⟨-, hawaits⟩ := hrest₁.forward hr₁
  obtain ⟨u₃, u₄, hs₂, hr₂, ha₂⟩ := ha₁.cons
  obtain ⟨hrest₂, reply, s, hr, hhandles, hkeeps, hothers⟩ :=
    (hawaits.silent hs₂).receive hv hws hr₂
  refine ⟨u₄, ha₂, hrest₂, fun j hj hp ↦ ?_, reply, s, hr, hhandles, fun hp ↦ ?_⟩
  · exact (hkeeps₁ j hp).trans (hothers j hj ((hkeeps₁ j hp).proper hp))
  · exact (hkeeps₁ i hp).trans (hkeeps ((hkeeps₁ i hp).proper hp))

end NetworkFileSystem.Cluster
