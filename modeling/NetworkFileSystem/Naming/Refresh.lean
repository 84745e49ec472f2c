import NetworkFileSystem.Naming.Tables

/-!
# Which server a lookup asks

`naming_server.c:326–332,365–420,486–519`. A lookup pings one server and records whether it
is up. On a hit the cache entry is read again after it was moved to the back, so the ping
may go to the server of another entry.
-/

namespace NetworkFileSystem.Naming

open Base Protocol Trie Prog

/-- How every server would answer a ping, and that it did so; a server is reachable if it
answers. -/
def Answered (answers : Nat → PingResult) (tr : List NsEvent) : Prop :=
  ∀ b r, (⟨.ping b, r⟩ : NsEvent) ∈ tr → r = answers b

theorem Answered.append {answers : Nat → PingResult} {tr₁ tr₂ : List NsEvent} :
    Answered answers (tr₁ ++ tr₂) ↔ Answered answers tr₁ ∧ Answered answers tr₂ := by
  simp only [Answered, List.mem_append]
  exact ⟨fun h ↦ ⟨fun b r hm ↦ h b r (.inl hm), fun b r hm ↦ h b r (.inr hm)⟩,
    fun h b r hm ↦ hm.elim (h.1 b r) (h.2 b r)⟩

theorem answered_ping (answers : Nat → PingResult) (b : Nat) :
    Answered answers [⟨.ping b, answers b⟩] := by
  intro c r hm
  simp only [List.mem_singleton, Sigma.mk.injEq, NsOp.ping.injEq] at hm
  obtain ⟨rfl, hr⟩ := hm
  exact eq_of_heq hr

/-! ### Lookups -/

/-- On a hit, the place of the hit is for the same server after the move: the entry is the last
one, or the one behind it has the same index. -/
def NsState.HitKeepsServer (st : NsState) (path : Text) : Prop :=
  ∀ index, searchCache st.cache path = some index → index + 1 = st.cache.length ∨
    st.cache[index + 1]?.map CacheEntry.index = st.cache[index]?.map CacheEntry.index

/-- The server `k` was pinged, and its flag says whether it is reachable. -/
structure Refreshed (answers : Nat → PingResult) (k : Nat) (tr : List NsEvent) (st : NsState) :
    Prop where
  pinged : tr = [⟨.ping k, answers k⟩]
  status : st.isUp k = decide (answers k = .up)

theorem isUp_afterPing {st : NsState} {k : Nat} (hk : k < st.storageServers.length) (j : Nat)
    (r : PingResult) : (st.afterPing j r).isUp k =
      if j = k ∧ r ≠ .noSocket then decide (r = .up) else st.isUp k := by
  have hinfo := List.getElem?_eq_getElem hk
  have hset : ∀ b, (st.modifyServer j (fun info ↦ { info with isUp := b })).isUp k =
      if j = k then b else st.isUp k := by
    intro b
    simp only [NsState.isUp, NsState.modifyServer, List.getElem?_modify, hinfo]
    by_cases hjk : j = k <;> simp [hjk]
  cases r with
  | noSocket => simp [NsState.afterPing]
  | down => simpa [NsState.afterPing] using hset false
  | up => simpa [NsState.afterPing] using hset true

/-- The place of a hit after the move. -/
theorem getElem?_moveToBack {cache : List CacheEntry} {index : Nat} (h : index < cache.length) :
    (moveToBack cache index)[index]? =
      if index + 1 = cache.length then cache[index]? else cache[index + 1]? := by
  have hlength : (cache.eraseIdx index).length = cache.length - 1 :=
    List.length_eraseIdx_of_lt h
  unfold moveToBack
  by_cases hlast : index + 1 = cache.length
  · rw [if_pos hlast, List.getElem?_append_right (by omega), hlength,
      show index - (cache.length - 1) = 0 by omega, List.getElem?_eq_getElem h]
    rfl
  · rw [if_neg hlast, List.getElem?_append_left (by omega), List.getElem?_eraseIdx,
      if_neg (by omega)]

/-- The lookup pings the server that it returns exactly if a hit keeps its server. -/
theorem pingTarget_eq_iff {st : NsState} {path : Text} {k : Nat} (hk : st.resolve path = some k) :
    st.pingTarget path = some k ↔ st.HitKeepsServer path := by
  unfold NsState.pingTarget NsState.HitKeepsServer
  unfold NsState.resolve at hk
  cases hc : searchCache st.cache path with
  | none =>
    rw [hc] at hk
    simpa using hk
  | some index =>
    obtain ⟨e, he, -⟩ := searchCache_eq_some hc
    have hlt := (List.getElem?_eq_some_iff.mp he).1
    rw [hc] at hk
    simp only [he, Option.map_some, Option.some.injEq] at hk
    have hafter : st.cacheAfter path = moveToBack st.cache index := by
      rw [NsState.cacheAfter, hc]
    simp only [hafter, getElem?_moveToBack hlt, Option.some.injEq, forall_eq']
    by_cases hlast : index + 1 = st.cache.length
    · simp [hlast, he, hk]
    · have hnext : index + 1 < st.cache.length := by omega
      rw [if_neg hlast, List.getElem?_eq_getElem hnext, he]
      simp [hlast, hk]

/-- For every reachable table and every path: a lookup that returns `k` has pinged `k` and
recorded whether it is reachable if and only if a hit in the cache keeps its server; and, where
no socket could be made for the ping, the flag was down before. -/
theorem lookup_refreshes_iff {st st' : NsState}
    (h : Reachable (fun s ↦ s = .initial) NsStep st) {answers : Nat → PingResult} {path : Text}
    {tr : List NsEvent} {k : Nat} (hx : Exec (searchStorageServer st path) tr (some (some k, st')))
    (ha : Answered answers tr) :
    Refreshed answers k tr st' ↔
      st.HitKeepsServer path ∧ (answers k = .noSocket → st.isUp k = false) := by
  obtain ⟨-, hindexed⟩ := h.invariant
    (fun _ hs ↦ hs ▸ NsState.initial_keeps) (fun _ _ hI hs ↦ hs.keeps hI)
  have hresolve := (exec_lookup hx).2.1.symm
  have hk : k < st.storageServers.length := by
    simpa [NsState.roots] using hindexed.resolve hresolve
  rw [← pingTarget_eq_iff hresolve]
  obtain ⟨-, -, hout⟩ | ⟨-, -, -, -, hout⟩ | ⟨j, r, -, hp, rfl, hout⟩ :=
    exec_searchStorageServer hx
  · cases hout
  · cases hout
  · obtain rfl := ha j r (by simp)
    obtain ⟨-, rfl⟩ := Prod.mk.inj (Option.some.inj hout)
    have hk' : k < { st with cache := st.cacheAfter path }.storageServers.length := hk
    have hup := isUp_afterPing hk' j (answers j)
    rw [hp, Option.some.injEq]
    constructor
    · rintro ⟨hping, hstatus⟩
      simp only [List.cons.injEq, and_true, Sigma.mk.injEq, NsOp.ping.injEq] at hping
      obtain rfl := hping.1
      refine ⟨rfl, fun hno ↦ ?_⟩
      rw [hup, if_neg (by simp [hno]), hno] at hstatus
      exact hstatus
    · rintro ⟨rfl, hno⟩
      refine ⟨rfl, ?_⟩
      rw [hup]
      by_cases hs : answers j = .noSocket
      · rw [if_neg (by simp [hs]), hs]
        exact hno hs
      · rw [if_pos ⟨rfl, hs⟩]

/-- Two servers register, and three paths fill the cache. -/
private def cacheFilled : NsProg NsState := do
  let st ← registerStorageServer .initial 4 (lit "10.0.0.1") 4000
    [lit "./s\n./s/a\n@!-Finished Indexing-!@\n"]
  let st ← registerStorageServer st 5 (lit "10.0.0.2") 4001 [lit "./t\n@!-Finished Indexing-!@\n"]
  let st ← processClient st (lit "cat ./t")
  let st ← processClient st (lit "cat ./s")
  processClient st (lit "cat ./s/a")

/-- The path is found in the middle of the cache; behind the move its place is for another path of
the same server, which does not answer. -/
theorem lookup_refreshes_hit :
    ∃ st st' tr, Reachable (fun s ↦ s = .initial) NsStep st ∧
      st.cache = [⟨lit "./t", 1⟩, ⟨lit "./s", 0⟩, ⟨lit "./s/a", 0⟩] ∧
      Exec (searchStorageServer st (lit "./s")) tr (some (some 0, st')) ∧
      Refreshed (fun k ↦ if k = 0 then .down else .up) 0 tr st' := by
  have hrun : (cacheFilled.replay [⟨.ping 1, PingResult.up⟩,
      ⟨.sendClient (lit "10.0.0.2,4001 "), true⟩, ⟨.ping 0, PingResult.up⟩,
      ⟨.sendClient (lit "10.0.0.1,4000 "), true⟩, ⟨.ping 0, PingResult.up⟩,
      ⟨.sendClient (lit "10.0.0.1,4000 "), true⟩]).join.bind (fun st ↦
      ((searchStorageServer st (lit "./s")).replay [⟨.ping 0, PingResult.down⟩]).join.map
        (fun out ↦ (st.cache, out.1))) =
      some ([⟨lit "./t", 1⟩, ⟨lit "./s", 0⟩, ⟨lit "./s/a", 0⟩], some 0) := by
    decide +kernel
  obtain ⟨st, hst, hlook⟩ := Option.bind_eq_some_iff.mp hrun
  obtain ⟨⟨k, st'⟩, hout, hk⟩ := Option.map_eq_some_iff.mp hlook
  obtain ⟨hcache, rfl⟩ := Prod.mk.inj hk
  obtain ⟨st₁, _, _, -, h₁, hrest⟩ :=
    exec_bind_some (exec_of_replay (Option.join_eq_some_iff.mp hst))
  obtain ⟨st₂, _, _, -, h₂, hrest⟩ := exec_bind_some hrest
  obtain ⟨st₃, _, _, -, h₃, hrest⟩ := exec_bind_some hrest
  obtain ⟨st₄, _, _, -, h₄, h₅⟩ := exec_bind_some hrest
  have hreach : Reachable (fun s ↦ s = .initial) NsStep st :=
    .next (.next (.next (.next (.next (.start rfl) (.register h₁)) (.register h₂)) (.command h₃))
      (.command h₄)) (.command h₅)
  have hx := exec_of_replay (Option.join_eq_some_iff.mp hout)
  have hanswered := answered_ping (fun k ↦ if k = 0 then .down else .up) 0
  refine ⟨st, st', _, hreach, hcache, hx,
    (lookup_refreshes_iff hreach hx hanswered).mpr ⟨fun index hindex ↦ .inr ?_, by simp⟩⟩
  rw [hcache] at hindex ⊢
  obtain rfl : index = 1 := by
    have hone : searchCache [⟨lit "./t", 1⟩, ⟨lit "./s", 0⟩, ⟨lit "./s/a", 0⟩] (lit "./s") =
        some 1 := by
      decide
    exact Option.some.inj (hindex.symm.trans hone)
  rfl

/-- Two paths of two servers are looked up, then the first one again: it is found at the front
of the cache, and behind the move the entry of the other server stands there and is pinged. -/
theorem other_server_is_pinged :
    ¬ ∀ st, Reachable (fun s ↦ s = .initial) NsStep st → ∀ path tr k st',
      Exec (searchStorageServer st path) tr (some (some k, st')) → Answered (fun _ ↦ .up) tr →
      Refreshed (fun _ ↦ .up) k tr st' := by
  intro hall
  let run : NsProg NsState := do
    let st ← registerStorageServer .initial 4 (lit "10.0.0.1") 4000
      [lit "./s\n@!-Finished Indexing-!@\n"]
    let st ← registerStorageServer st 5 (lit "10.0.0.2") 4001 [lit "./t\n@!-Finished Indexing-!@\n"]
    let st ← processClient st (lit "cat ./s")
    processClient st (lit "cat ./t")
  have hrun : (run.replay [⟨.ping 0, PingResult.up⟩, ⟨.sendClient (lit "10.0.0.1,4000 "), true⟩,
      ⟨.ping 1, PingResult.up⟩, ⟨.sendClient (lit "10.0.0.2,4001 "), true⟩]).join.bind (fun st ↦
      ((searchStorageServer st (lit "./s")).replay [⟨.ping 1, PingResult.up⟩]).join.map
        Prod.fst) = some (some 0) := by
    decide +kernel
  obtain ⟨st, hst, hlook⟩ := Option.bind_eq_some_iff.mp hrun
  obtain ⟨⟨k, st'⟩, hout, rfl⟩ := Option.map_eq_some_iff.mp hlook
  obtain ⟨st₁, _, _, -, h₁, hrest⟩ :=
    exec_bind_some (exec_of_replay (Option.join_eq_some_iff.mp hst))
  obtain ⟨st₂, _, _, -, h₂, hrest⟩ := exec_bind_some hrest
  obtain ⟨st₃, _, _, -, h₃, h₄⟩ := exec_bind_some hrest
  have hreach : Reachable (fun s ↦ s = .initial) NsStep st :=
    .next (.next (.next (.next (.start rfl) (.register h₁)) (.register h₂)) (.command h₃))
      (.command h₄)
  have hx := exec_of_replay (Option.join_eq_some_iff.mp hout)
  have hping := (hall st hreach _ _ _ _ hx (answered_ping (fun _ ↦ .up) 1)).pinged
  simp at hping

end NetworkFileSystem.Naming
