import NetworkFileSystem.Base.Text

/-!
# Byte streams

General support. What one end of a connection writes the other end reads in the same order, but
in pieces of any size. Behind the last piece it learns that the connection was closed.
-/

namespace NetworkFileSystem.Base

/-- The bytes on their way, and whether there will be more. -/
structure Pipe where
  bytes : Text
  closed : Bool

namespace Pipe

/-- A new connection. -/
def empty : Pipe := ⟨[], false⟩

/-- `send`. -/
def write (p : Pipe) (t : Text) : Pipe := { p with bytes := p.bytes ++ t }

/-- `close`. -/
def close (p : Pipe) : Pipe := { p with closed := true }

/-- A `recv` of up to `size` bytes brings the piece `t`, which is empty behind the last byte. -/
inductive Reads (size : Nat) : Text → Pipe → Pipe → Prop where
  | piece {t rest : Text} {c : Bool} : t ≠ [] → t.length ≤ size →
      Reads size t ⟨t ++ rest, c⟩ ⟨rest, c⟩
  | eof : Reads size [] ⟨[], true⟩ ⟨[], true⟩

@[simp] theorem bytes_write (p : Pipe) (t : Text) : (p.write t).bytes = p.bytes ++ t := rfl

@[simp] theorem closed_write (p : Pipe) (t : Text) : (p.write t).closed = p.closed := rfl

@[simp] theorem bytes_close (p : Pipe) : p.close.bytes = p.bytes := rfl

@[simp] theorem closed_close (p : Pipe) : p.close.closed = true := rfl

namespace Reads

variable {size : Nat} {t : Text} {p p' : Pipe}

/-- Nothing is lost and nothing changes places. -/
theorem bytes_eq (h : Reads size t p p') : p.bytes = t ++ p'.bytes := by
  cases h with
  | piece => rfl
  | eof => rfl

theorem closed_eq (h : Reads size t p p') : p'.closed = p.closed := by
  cases h with
  | piece => rfl
  | eof => rfl

theorem length_le (h : Reads size t p p') : t.length ≤ size := by
  cases h with
  | piece _ hlen => exact hlen
  | eof => exact Nat.zero_le size

/-- An empty piece is the end of the stream. -/
theorem ended (h : Reads size [] p p') : p = ⟨[], true⟩ ∧ p' = ⟨[], true⟩ := by
  cases h with
  | piece hne => exact absurd rfl hne
  | eof => exact ⟨rfl, rfl⟩

end Reads

/-- A `recv` returns when there is something to read, or nothing more to come. -/
theorem exists_reads {size : Nat} (hsize : 0 < size) {p : Pipe}
    (h : p.bytes ≠ [] ∨ p.closed = true) : ∃ t p', Reads size t p p' := by
  obtain ⟨bytes, closed⟩ := p
  cases bytes with
  | nil =>
    obtain hne | hclosed := h
    · exact absurd rfl hne
    · cases hclosed
      exact ⟨[], _, .eof⟩
  | cons b rest =>
    have hpiece : Reads size [b] ⟨[b] ++ rest, closed⟩ ⟨rest, closed⟩ :=
      .piece (List.cons_ne_nil b []) hsize
    exact ⟨[b], _, hpiece⟩

end Pipe

end NetworkFileSystem.Base
