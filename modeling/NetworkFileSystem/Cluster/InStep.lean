import NetworkFileSystem.Cluster.Discipline

/-!
# Naming server and storage servers in step

`naming_server.c:56–103,521–713,716–1268`, `storage_server.c:355–596`. The naming server
handles registrations, client commands and write notifications one at a time, while the
storage servers work through what they have been sent. Between two commands no reply is
left on a connection, as long as no backup answers behind the index of a client's copy:
the `copydifferentb` that is then sent is answered, and nobody reads the answer.
-/

namespace NetworkFileSystem.Cluster

open Base Protocol Naming Storage Prog

/-- The tables of the naming server and the connections. -/
structure Joint where
  tables : NsState
  links : Links

namespace Joint

/-- Any number of servers are registered, and nothing is under way. -/
def Start (s : Joint) : Prop :=
  Reachable (fun st ↦ st = .initial) NsStep s.tables ∧ s.links = fun _ ↦ .idle

/-- The connection of a server that has just sent the index of `paths`. -/
def fresh (paths : List Text) : Link :=
  { Link.idle with outbox := (indexMessages paths).map (Prod.mk 0) }

/-- One thing that the naming server handles, with everything the storage servers do meanwhile.
Indexes list paths that satisfy `index`; `ok` admits what is handled. A server that registers
gets a new connection, under the index `slot`. -/
inductive Step (index : List Text → Prop) (ok : Text → List NsEvent → Prop) :
    Joint → Joint → Prop where
  | command {s : Joint} {st' : NsState} {w' : Links} {line : Text} {tr : List NsEvent} :
      ok line tr → Exec (processClient s.tables line) tr (some st') →
      (cluster index).Accepts s.links tr w' → Step index ok s ⟨st', w'⟩
  | notify {s : Joint} {st' : NsState} {w' : Links} {line : Text} {tr : List NsEvent} :
      ok line tr → Exec (listenAsync s.tables line) tr (some st') →
      (cluster index).Accepts s.links tr w' → Step index ok s ⟨st', w'⟩
  | register {s : Joint} {st' : NsState} {w' : Links} {ip : Text} {socket portClient slot : Nat}
      {paths segments : List Text} {l : Link} {tr : List NsEvent} :
      ok [] tr → index paths → (fresh paths).receiveIndex segments l →
      Exec (registerStorageServer s.tables socket ip portClient segments) tr (some st') →
      (cluster index).Accepts (Function.update s.links slot l) tr w' → Step index ok s ⟨st', w'⟩

end Joint

/-- No reply is left behind once the commands have been processed, and every message read so
far was a reply to the last command. -/
def InStep (w : Links) : Prop :=
  ∀ i, ((w i).inbox = [] → (w i).outbox = []) ∧ ReadsInStep (w i)

/-- Every command sent can be executed, and no backup answers behind the index of a copy. -/
structure PairsReplies (line : Text) (tr : List NsEvent) : Prop where
  executable : Executable tr
  copy : startsWith (lit "copy") line = true → ∀ b, answered b ∉ tr.drop 7

private theorem calm_of_fresh {paths segments : List Text} {l : Link} (hp : IndexablePaths paths)
    (h : (Joint.fresh paths).receiveIndex segments l) : l.Calm := by
  refine Link.Awaiting.receiveIndex (l := Joint.fresh paths) ⟨?_, .inr (.inl ⟨rfl, ?_⟩)⟩ h
  · simp [ReadsInStep, Joint.fresh, Link.idle]
  · exact ⟨[], paths, hp, by rw [replies_reindex]; rfl⟩

private theorem calm_of_reachable {s : Joint}
    (h : Reachable Joint.Start (Joint.Step IndexablePaths PairsReplies) s) : s.links.Calm := by
  refine h.invariant (I := fun s ↦ s.links.Calm) ?_ ?_
  · rintro s ⟨-, hlinks⟩ i
    rw [hlinks]
    exact Link.calm_idle
  · intro s t hs hst
    cases hst with
    | command hok hx ha =>
      exact hs.accepts (ClientRun.disciplined hok.copy (exec_processClient hx)) hok.executable ha
    | notify hok hx ha => exact hs.accepts (disciplined_listenAsync hx) hok.executable ha
    | @register _ _ _ _ _ slot _ _ l _ hok hp hl hx ha =>
      have hw : Links.Calm (Function.update s.links slot l) := by
        intro j
        by_cases hj : j = slot
        · rw [hj, Function.update_self]
          exact calm_of_fresh hp hl
        · rw [Function.update_of_ne hj]
          exact hs j
      exact hw.accepts (disciplined_registerStorageServer hx) hok.executable ha

/-- In every run of registrations, commands and notifications that meet the condition, from any
registered servers with or without backups, naming server and storage servers stay in step. -/
theorem servers_stay_in_step {s : Joint}
    (h : Reachable Joint.Start (Joint.Step IndexablePaths PairsReplies) s) : InStep s.links := by
  have hcalm := calm_of_reachable h
  exact fun i ↦ ⟨fun _ ↦ (hcalm i).outbox, (hcalm i).reads⟩

/-! ### Runs on one connection -/

private theorem process_single {index : List Text → Prop} {l : Link} {k : Nat} {msg : Text}
    {rest : List (Nat × Text)} (buffer2 : Text) (paths : List Text) (hopen : l.isOpen = true)
    (hin : l.inbox = (k, msg) :: rest) (hp : index paths) :
    (cluster index).silent (Links.single l) (Links.single { l with
      inbox := rest
      outbox := l.outbox ++ (replies msg buffer2 paths).map (Prod.mk k) }) :=
  ⟨0, Links.on_single (.process hopen hin (fun _ ↦ ⟨buffer2, paths, hp, rfl⟩))⟩

/-- A server exporting `./s` has registered, and creates `./s/a` for a client. -/
theorem servers_stay_in_step_after_mkdir :
    ∃ s, Reachable Joint.Start (Joint.Step IndexablePaths PairsReplies) s ∧
      (s.links 0).reads = [(1, 1)] ∧ InStep s.links := by
  let tr : List NsEvent := [⟨.ping 0, PingResult.up⟩, ⟨.forward 0 (lit "mkdir ./s/a"), true⟩,
    ⟨.recvServer 0, some (lit "Created folder @ ./s/a\n")⟩,
    ⟨.sendClient (lit "Created folder @ ./s/a\n"), true⟩]
  have hrun : (sampleRegistration.replay []).join.bind (fun st ↦
      ((processClient st (lit "mkdir ./s/a")).replay tr).map Option.isSome) = some true := by
    decide +kernel
  obtain ⟨st, hst, hrest⟩ := Option.bind_eq_some_iff.mp hrun
  obtain ⟨out, hout, hsome⟩ := Option.map_eq_some_iff.mp hrest
  obtain ⟨st', rfl⟩ := Option.isSome_iff_exists.mp hsome
  have hreply : replies (lit "mkdir ./s/a") (lit "Created folder @ ./s/a\n") [] =
      [lit "Created folder @ ./s/a\n"] := by decide
  have hacc : ∃ l : Link, (cluster IndexablePaths).Accepts (.single .idle) tr (.single l) ∧
      l.reads = [(1, 1)] := by
    refine ⟨_, .event rfl (.event (Links.on_single (Link.send_of_isOpen rfl))
      (.silent (process_single (lit "Created folder @ ./s/a\n") [] rfl rfl ?_)
      (.event (Links.on_single (.inl ⟨1, lit "Created folder @ ./s/a\n", [], ?_, rfl, rfl⟩))
      (.event rfl .nil)))), rfl⟩
    · simp [IndexablePaths]
    · exact congrArg (List.map (Prod.mk 1)) hreply
  obtain ⟨l, hacc, hreads⟩ := hacc
  have hok : PairsReplies (lit "mkdir ./s/a") tr := by
    refine ⟨fun e he msg hmsg ↦ ?_, fun h ↦ absurd h (by decide)⟩
    simp only [tr, List.mem_cons, List.not_mem_nil, or_false] at he
    obtain rfl | rfl | rfl | rfl := he
    · cases hmsg
    · cases hmsg
      decide
    · cases hmsg
    · cases hmsg
  have htables : Reachable (fun st ↦ st = .initial) NsStep st :=
    .next (.start rfl) (.register (exec_of_replay (Option.join_eq_some_iff.mp hst)))
  have hreach : Reachable Joint.Start (Joint.Step IndexablePaths PairsReplies) ⟨st', .single l⟩ :=
    .next (.start (s := ⟨st, fun _ ↦ .idle⟩) ⟨htables, rfl⟩)
      (.command hok (exec_of_replay hout) (by rw [← Links.single_idle]; exact hacc))
  have hone : Links.single l 0 = l := Links.single_zero l
  exact ⟨_, hreach, (congrArg Link.reads hone).trans hreads, servers_stay_in_step hreach⟩

/-- The registration of three servers, which then back each other up. -/
private def threeRegistrations : NsProg NsState := do
  let st ← registerStorageServer .initial 4 (lit "10.0.0.1") 4000
    [lit "./s\n./s/d\n@!-Finished Indexing-!@\n"]
  let st ← registerStorageServer st 5 (lit "10.0.0.2") 4001 [lit "./t\n@!-Finished Indexing-!@\n"]
  registerStorageServer st 6 (lit "10.0.0.3") 4002 [lit "./u\n@!-Finished Indexing-!@\n"]

private theorem reachable_three {tr : List NsEvent} {st : NsState}
    (h : Exec threeRegistrations tr (some st)) :
    Reachable (fun st ↦ st = .initial) NsStep st := by
  obtain ⟨st₁, _, _, -, h₁, hrest⟩ := exec_bind_some h
  obtain ⟨st₂, _, _, -, h₂, h₃⟩ := exec_bind_some hrest
  exact .next (.next (.next (.start rfl) (.register h₁)) (.register h₂)) (.register h₃)

/-- The trace of a copy of `./s/d` into `./s` on the first of three servers, both backups of
which answer. -/
private def backedUpCopy : List NsEvent :=
  [⟨.ping 0, PingResult.up⟩, ⟨.ping 0, PingResult.up⟩,
    ⟨.forward 0 (lit "copysame ./s/d ./s"), true⟩,
    ⟨.recvServer 0, some (lit "Finished Copying\n")⟩,
    ⟨.sendClient (lit "Finished Copying\n"), true⟩, ⟨.reindex 0, true⟩,
    ⟨.recvIndex 0, indexMessages [lit "./s", lit "./s/d"]⟩, ⟨.ping 1, PingResult.up⟩,
    ⟨.replicate 0 (lit "copydifferentb ./s/d ./backupfolderforss/t/s 10.0.0.2 4001"), true⟩,
    ⟨.ping 2, PingResult.up⟩,
    ⟨.replicate 0 (lit "copydifferentb ./s/d ./backupfolderforss/u/s 10.0.0.3 4002"), true⟩]

/-- The server answers the copy, the request for the index, and both commands for the backups. -/
private theorem accepts_backedUpCopy :
    ∃ l, (cluster (fun _ ↦ True)).Accepts (.single .idle) backedUpCopy (.single l) ∧
      l.inbox = [] ∧ l.outbox ≠ [] := by
  have hdone : replies (lit "copysame ./s/d ./s") (lit "Finished Copying\n") [] =
      [lit "Finished Copying\n"] := by decide
  refine ⟨_, .event rfl (.event rfl (.event (Links.on_single (Link.send_of_isOpen rfl))
    (.silent (process_single (lit "Finished Copying\n") [] rfl rfl trivial)
    (.event (Links.on_single (.inl ⟨1, lit "Finished Copying\n", [], ?_, rfl, rfl⟩)) (.event rfl
    (.event (Links.on_single (Link.send_of_isOpen rfl))
    (.silent (process_single [] [lit "./s", lit "./s/d"] rfl rfl trivial)
    (.event (Links.on_single ⟨(indexMessages [lit "./s", lit "./s/d"]).map (Prod.mk 2), [], ?_, by simp,
      ?_, .inl (by decide), rfl⟩)
    (.event rfl (.event (Links.on_single (Link.send_of_isOpen rfl)) (.event rfl (.event (Links.on_single (Link.send_of_isOpen rfl))
    (.silent (process_single (lit "Finished Copying\n") [] rfl rfl trivial)
    (.silent (process_single (lit "Finished Copying\n") [] rfl rfl trivial)
    .nil)))))))))))))), ?_, ?_⟩
  · exact congrArg (List.map (Prod.mk 1)) hdone
  · rw [replies_reindex]
    simp [Link.idle]
  · intro pre hpre hne
    refine indexEnds_of_before [lit "./s", lit "./s/d"] ?_
      ((List.prefix_concat_iff.mp hpre).resolve_left hne)
    unfold Indexable
    decide
  · rfl
  · decide

/-- After a client's copy, the replies of the server to the commands for the backups are left
unread. -/
theorem copy_leaves_replies :
    ¬ ∀ s, Reachable Joint.Start (Joint.Step (fun _ ↦ True) (fun _ _ ↦ True)) s →
      InStep s.links := by
  intro hall
  have hrun : (threeRegistrations.runWith agreeable).2.bind (fun st ↦
      ((processClient st (lit "copy ./s/d ./s")).replay backedUpCopy).map Option.isSome) =
        some true := by
    decide +kernel
  obtain ⟨st, hst, hrest⟩ := Option.bind_eq_some_iff.mp hrun
  obtain ⟨out, hout, hsome⟩ := Option.map_eq_some_iff.mp hrest
  obtain ⟨st', rfl⟩ := Option.isSome_iff_exists.mp hsome
  obtain ⟨l, hacc, hin, hleft⟩ := accepts_backedUpCopy
  have hreg := exec_runWith agreeable threeRegistrations
  rw [hst] at hreg
  have hreach : Reachable Joint.Start (Joint.Step (fun _ ↦ True) (fun _ _ ↦ True)) ⟨st', .single l⟩ :=
    .next (.start (s := ⟨st, fun _ ↦ .idle⟩) ⟨reachable_three hreg, rfl⟩)
      (.command trivial (exec_of_replay hout) (by rw [← Links.single_idle]; exact hacc))
  have hone : Links.single l 0 = l := Links.single_zero l
  have hstep := (hall _ hreach 0).1
  simp only [hone] at hstep
  exact hleft (hstep hin)

end NetworkFileSystem.Cluster
