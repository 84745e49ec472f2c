import NetworkFileSystem.Storage.Commands

/-!
# How the commands of the naming server are told apart

`storage_server.c:355–372`, `helper.c:41–53`. The naming server writes its commands one
behind the other into a byte stream; each result of `recv_good` is executed as one
command, with nothing that marks where a command ends.
-/

namespace NetworkFileSystem.Storage

open Base Protocol

/-- The stream of the commands `cmds`, as successive results of `recv_good` deliver it. -/
structure Segments (chunks cmds : List Text) : Prop where
  stream : chunks.flatten = cmds.flatten
  received : ∀ x ∈ chunks, x ≠ [] ∧ x.length ≤ bufferSize

/-- What is received is executed as the commands are, one by one: the same branches with the
same argument strings. -/
def Executes (chunks cmds : List Text) : Prop :=
  chunks.map execute = cmds.map execute ∧ ∀ c ∈ cmds, execute c ≠ none

/-- Texts of the same words have the same bytes between the blanks. -/
private theorem filter_of_words {s t : Text} (h : words s = words t) :
    s.filter (· ≠ blank) = t.filter (· ≠ blank) := by
  rw [← flatten_tokens, ← flatten_tokens]
  exact congrArg List.flatten h

/-- A command and a received buffer that are executed alike, each at the start of the same
stream, are equal if what follows them starts with a verb. -/
private theorem eq_of_execute {c x : Text} {cs xs : List Text} (hwords : words x = words c)
    (hcs : ∀ c ∈ cs, branch c ≠ none) (hxs : ∀ x ∈ xs, branch x ≠ none)
    (hstream : x ++ xs.flatten = c ++ cs.flatten) : x = c ∧ xs.flatten = cs.flatten := by
  have hhead : ∀ ys : List Text, (∀ y ∈ ys, branch y ≠ none) → ∀ b, b ∈ ys.flatten.head? → b ≠ blank := by
    intro ys hys b hb
    cases ys with
    | nil => cases hb
    | cons y ys =>
      obtain ⟨b', rest, rfl, hne⟩ := head_of_branch (hys y (by simp))
      cases hb
      exact hne
  have hfilter := filter_of_words hwords
  -- One of the two is a prefix of the other, and what is left over holds no word.
  obtain ⟨y, rfl, hy⟩ | ⟨y, rfl, hy⟩ := List.append_eq_append_iff.mp hstream
  · cases y with
    | nil => exact ⟨by simp, by simpa using hy⟩
    | cons b y =>
      have hb : b ≠ blank := hhead xs hxs b (by simp [hy])
      simp [hb] at hfilter
  · cases y with
    | nil => exact ⟨by simp, by simpa using hy.symm⟩
    | cons b y =>
      have hb : b ≠ blank := hhead cs hcs b (by simp [hy])
      simp [hb] at hfilter

private theorem chunks_eq_of_executes {chunks cmds : List Text}
    (hverb : ∀ c ∈ cmds, branch c ≠ none) (hstream : chunks.flatten = cmds.flatten)
    (hexec : chunks.map execute = cmds.map execute) (hdef : ∀ c ∈ cmds, execute c ≠ none) :
    chunks = cmds := by
  induction cmds generalizing chunks with
  | nil => simpa using hexec
  | cons c cs ih =>
    obtain ⟨x, xs, rfl, hx, hxs⟩ := List.map_eq_cons_iff.mp hexec
    have hbranches : ∀ x ∈ xs, branch x ≠ none := by
      intro y hy
      obtain ⟨c', hc', he⟩ := List.mem_map.mp (hxs ▸ List.mem_map_of_mem hy)
      obtain ⟨⟨v, args⟩, hv⟩ := Option.ne_none_iff_exists'.mp (hdef c' (by simp [hc']))
      rw [(execute_eq_some (he ▸ hv)).1, ← (execute_eq_some hv).1]
      exact hverb c' (by simp [hc'])
    obtain ⟨⟨v, args⟩, hv⟩ := Option.ne_none_iff_exists'.mp (hdef c (by simp))
    have hwords : words x = words c := by
      rw [(execute_eq_some (hx ▸ hv)).2, (execute_eq_some hv).2]
    obtain ⟨rfl, hrest⟩ := eq_of_execute hwords (fun d hd ↦ hverb d (by simp [hd])) hbranches hstream
    rw [ih (fun d hd ↦ hverb d (by simp [hd])) hrest hxs (fun d hd ↦ hdef d (by simp [hd]))]

/-- However the stream is cut: if every result of `recv_good` is one command, and each command
can be executed, exactly the commands are executed; and if the commands start with verbs, this
is the only case. -/
theorem commands_executed_iff_received_whole {chunks cmds : List Text}
    (h : Segments chunks cmds) :
    (chunks = cmds ∧ (∀ c ∈ cmds, execute c ≠ none) → Executes chunks cmds) ∧
      ((∀ c ∈ cmds, branch c ≠ none) → Executes chunks cmds →
        chunks = cmds ∧ ∀ c ∈ cmds, execute c ≠ none) := by
  constructor
  · rintro ⟨rfl, hdef⟩
    exact ⟨rfl, hdef⟩
  · rintro hverb ⟨hexec, hdef⟩
    exact ⟨chunks_eq_of_executes hverb h.stream hexec hdef, hdef⟩

/-- Two backup commands that arrive apart. -/
theorem commands_executed_iff_received_whole_apart :
    Executes [lit "mkdirb ./s/a", lit "touchb ./s/a/f"] [lit "mkdirb ./s/a", lit "touchb ./s/a/f"] := by
  have hseg : Segments [lit "mkdirb ./s/a", lit "touchb ./s/a/f"]
      [lit "mkdirb ./s/a", lit "touchb ./s/a/f"] := ⟨rfl, by decide⟩
  exact (commands_executed_iff_received_whole hseg).1 ⟨rfl, by decide⟩

/-- Two backup commands that arrive in one piece are executed as one, the creation of a folder
whose name ends in the second verb. -/
theorem coalesced_commands_are_one :
    ¬ ∀ cmds chunks, (∀ c ∈ cmds, branch c ≠ none ∧ execute c ≠ none) → Segments chunks cmds →
      Executes chunks cmds := by
  intro hall
  have hexec := hall [lit "mkdirb ./s/a", lit "touchb ./s/a/f"]
    [lit "mkdirb ./s/atouchb ./s/a/f"] (by decide) ⟨by decide, by decide⟩
  exact absurd (congrArg List.length hexec.1) (by decide)

end NetworkFileSystem.Storage
