import NetworkFileSystem.Client.Requests
import NetworkFileSystem.Cluster.Replicas
import NetworkFileSystem.Naming.Runs

/-!
# Reads that fall back to a backup

`naming_server.c:1059–1097`, `client.c:551–601`, `storage_server.c:301–341`. If the server of a
path is down, the naming server answers a read with the address and the root of a backup. The
client drops the root and sends the backup the command as it was typed in.
-/

namespace NetworkFileSystem.Client

open Base Protocol Trie Naming Storage Cluster

/-- The path that a storage server opens for a read, `storage_server.c:301–341`. -/
def openedPath (request : Text) : Option Text :=
  if startsWith (lit "sscopy") request then none
  else if startsWith (lit "ls") request || startsWith (lit "cat") request ||
      startsWith (lit "stream") request || startsWith (lit "get_info") request then
    (words request)[1]?
  else none

/-- The client's request leads to the replica of `path` on a backup with the root `./r`. -/
def AsksForReplica (line reply r path : Text) : Prop :=
  ∃ ip port request, readRequest line reply = some (ip, port, request) ∧
    openedPath request = some (replicaPath r path)

/-- A replica is at another place than what it is a replica of. -/
theorem replicaPath_ne (r path : Text) : replicaPath r path ≠ path := by
  intro h
  have hlen := congrArg List.length h
  simp [replicaPath, backupFolder, lit] at hlen
  omega

/-- The client sends the command as it is. -/
private theorem request_eq_line {line reply ip port request : Text}
    (h : readRequest line reply = some (ip, port, request)) : request = line := by
  unfold readRequest at h
  split at h
  · cases h
  · obtain ⟨details, -, h⟩ := Option.bind_eq_some_iff.mp h
    split at h
    · cases h
      rfl
    · cases h

/-- Whatever the answer, a read is a read of the path that was typed in. -/
private theorem not_asksForReplica {line reply r verb path : Text} {more : List Text}
    (hline : words line = verb :: path :: more) : ¬ AsksForReplica line reply r path := by
  rintro ⟨ip, port, request, hrequest, hopened⟩
  rw [request_eq_line hrequest, openedPath, hline] at hopened
  split at hopened
  · cases hopened
  · split at hopened
    · exact replicaPath_ne r path (Option.some.inj hopened).symm
    · cases hopened

/-- The commands that read a path. -/
def readVerbs : List Text := [lit "cat", lit "ls", lit "get_info", lit "stream"]

/-- A read of a path below the top is looked up. -/
private theorem processClient_of_read {st : NsState} {line verb path : Text} {more : List Text}
    (hline : words line = verb :: path :: more) (hverb : verb ∈ readVerbs)
    (hpath : 2 < path.length) : processClient st line = locate st path := by
  have hnot : ∀ p, blank ∉ p → p ≠ [] → (∀ v ∈ readVerbs, startsWith p v = false) →
      startsWith p line = false := by
    intro p hblank hne hall
    by_contra hstart
    have hfirst := startsWith_of_words hblank hne (by simpa using hstart) hline
    rw [hall verb hverb] at hfirst
    cases hfirst
  have hlisting : ¬ (line = lit "ls ~" ∨ line = lit "ls .") := by
    rintro (rfl | rfl)
    · have hwords : words (lit "ls ~") = [lit "ls", lit "~"] := by decide
      rw [hwords] at hline
      cases hline
      exact absurd hpath (by decide)
    · have hwords : words (lit "ls .") = [lit "ls", lit "."] := by decide
      rw [hwords] at hline
      cases hline
      exact absurd hpath (by decide)
  have htop : isTopWord path = false := by
    have hshort : ∀ t : Text, t.length ≤ 2 → (path == t) = false := by
      intro t ht
      rw [beq_eq_false_iff_ne]
      rintro rfl
      omega
    rw [isTopWord, hshort _ (by decide), hshort _ (by decide)]
    rfl
  have hother : ∀ c, c ∉ readVerbs → verb ≠ c := by
    rintro c hc rfl
    exact hc hverb
  unfold processClient
  rw [if_neg hlisting, hnot (lit "copy") (by decide) (by decide) (by decide), hline]
  simp only [Bool.false_eq_true, if_false, htop]
  rw [hnot (lit "write") (by decide) (by decide) (by decide)]
  simp only [Bool.false_eq_true, if_false, pure_bind]
  rw [if_neg (show ¬ (verb = lit "mkdir" ∨ verb = lit "touch") from
      not_or.mpr ⟨hother _ (by decide), hother _ (by decide)⟩),
    if_neg (show ¬ (verb = lit "rmdir" ∨ verb = lit "rm") from
      not_or.mpr ⟨hother _ (by decide), hother _ (by decide)⟩)]

section Failover

variable {st st₁ st₂ : NsState} {line verb path name : Text} {more : List Text}
  {t t₂ : List NsEvent} {i b : Nat}

/-- The naming server answers a read of a server that is down with the backup it has found. -/
private theorem exec_failover (hline : words line = verb :: path :: more)
    (hverb : verb ∈ readVerbs) (hpath : 2 < path.length)
    (hlookup : Prog.Exec (searchStorageServer st path) t (some (some i, st₁)))
    (hdown : st₁.isUp i = false)
    (hbackup : Prog.Exec (redundantSs st₁ i) t₂ (some (some b, st₂))) (hne : b ≠ i)
    (hname : st₂.rootName b = some name) :
    Prog.Exec (processClient st line)
      (t ++ (t₂ ++ [⟨.sendClient (backupAddress st₂ b name), true⟩])) (some st₂) := by
  rw [processClient_of_read hline hverb hpath]
  unfold locate
  refine Prog.exec_bind.mpr (.inr ⟨_, t, _, rfl, hlookup, ?_⟩)
  simp only [hdown, Bool.false_eq_true, if_false]
  refine Prog.exec_bind.mpr (.inr ⟨_, t₂, _, rfl, hbackup, ?_⟩)
  simp only [hne, if_false, hname]
  exact exec_reply.mpr ⟨true, [], rfl, rfl, rfl⟩

/-- A read of a path of server `i`, which is down, for which backup `b` steps in: the naming
server names the backup and its root, but the client never asks for the replica there. -/
theorem failover_never_asks_for_replica (hline : words line = verb :: path :: more)
    (hverb : verb ∈ readVerbs) (hpath : 2 < path.length)
    (hlookup : Prog.Exec (searchStorageServer st path) t (some (some i, st₁)))
    (hdown : st₁.isUp i = false)
    (hbackup : Prog.Exec (redundantSs st₁ i) t₂ (some (some b, st₂))) (hne : b ≠ i)
    (hname : st₂.rootName b = some name) :
    Prog.Exec (processClient st line)
        (t ++ (t₂ ++ [⟨.sendClient (backupAddress st₂ b name), true⟩])) (some st₂) ∧
      ¬ AsksForReplica line (backupAddress st₂ b name) name path :=
  ⟨exec_failover hline hverb hpath hlookup hdown hbackup hne hname, not_asksForReplica hline⟩

end Failover

/-- A read of `./s` finds its server down. -/
private def afterLookup : NsState :=
  { twoServers with cache := addToCache [] (lit "./s") 0 }.afterPing 0 .down

/-- The backup of the server answers. -/
private def afterFailover : NsState := (afterLookup.afterPing 0 .down).afterPing 1 .up

private theorem exec_lookup_down :
    Prog.Exec (searchStorageServer twoServers (lit "./s")) [⟨.ping 0, .down⟩]
      (some (some 0, afterLookup)) := by
  have hfound : searchInTries twoServers.roots (lit "./s") = some (some 0) := by decide
  unfold searchStorageServer
  rw [show searchCache twoServers.cache (lit "./s") = none from rfl]
  simp only [hfound]
  exact ⟨.down, [], rfl, rfl, rfl⟩

private theorem exec_backup_up :
    Prog.Exec (redundantSs afterLookup 0) [⟨.ping 0, .down⟩, ⟨.ping 1, .up⟩]
      (some (some 1, afterFailover)) :=
  ⟨.down, _, rfl, .up, [], rfl, rfl, rfl⟩

theorem failover_never_asks_for_replica_of_two :
    ¬ AsksForReplica (lit "cat ./s") (backupAddress afterFailover 1 (lit "r")) (lit "r")
      (lit "./s") := by
  have hline : words (lit "cat ./s") = [lit "cat", lit "./s"] := by decide
  have hname : afterFailover.rootName 1 = some (lit "r") := by decide
  exact (failover_never_asks_for_replica hline (by decide) (by decide) exec_lookup_down (by decide)
    exec_backup_up (by decide) hname).2

/-- The backup at 10.0.0.2 is asked for `./s`, of which it holds a replica elsewhere. -/
theorem backup_is_asked_for_original :
    (∃ tr, Prog.Exec (processClient twoServers (lit "cat ./s"))
      (tr ++ [⟨.sendClient (lit "Backup 10.0.0.2,4001,r"), true⟩]) (some afterFailover)) ∧
    readRequest (lit "cat ./s") (lit "Backup 10.0.0.2,4001,r") =
      some (lit "10.0.0.2", lit "4001", lit "cat ./s") ∧
    openedPath (lit "cat ./s") ≠ some (replicaPath (lit "r") (lit "./s")) := by
  have hline : words (lit "cat ./s") = [lit "cat", lit "./s"] := by decide
  have hname : afterFailover.rootName 1 = some (lit "r") := by decide
  have hreply : backupAddress afterFailover 1 (lit "r") = lit "Backup 10.0.0.2,4001,r" := by decide
  refine ⟨⟨[⟨.ping 0, .down⟩, ⟨.ping 0, .down⟩, ⟨.ping 1, .up⟩], ?_⟩, by decide, by decide⟩
  rw [← hreply]
  exact exec_failover hline (by decide) (by decide) exec_lookup_down (by decide) exec_backup_up
    (by decide) hname

end NetworkFileSystem.Client
