import Mathlib.Data.List.Infix
import Mathlib.Data.List.SplitOn

/-!
# Outlines

General support. An outline lists the nodes of a forest, each before those below it, by depth and
name. The depths are enough to find the way to every node again.
-/

namespace NetworkFileSystem.Base

variable {α : Type}

/-- Lines that all end with `d`, and do not contain it otherwise, are found again by splitting. -/
theorem splitOn_flatten_concat [BEq α] [LawfulBEq α] {d : α} {lines : List (List α)}
    (h : ∀ l ∈ lines, d ∉ l) :
    ((lines.map (· ++ [d])).flatten).splitOn d = lines ++ [[]] := by
  induction lines with
  | nil => rfl
  | cons l lines ih =>
    rw [List.forall_mem_cons] at h
    rw [List.map_cons, List.flatten_cons, List.append_assoc, List.singleton_append,
      List.splitOn_append_cons_self, List.splitOn_eq_singleton h.1, ih h.2]
    rfl

/-- A heading: the names on the way to a node of a forest, and its own name. -/
structure Heading (α : Type) where
  above : List α
  name : α

namespace Heading

/-- The whole way, with the node itself. -/
def path (x : Heading α) : List α := x.above ++ [x.name]

/-- What an outline says of the node. -/
def item (x : Heading α) : Nat × α := (x.above.length, x.name)

/-- Every node comes behind one that is on the way to it or below that one; `last` is the way to
the node in front of the list. -/
def Ordered : List α → List (Heading α) → Prop
  | _, [] => True
  | last, x :: xs => x.above <+: last ∧ Ordered x.path xs

/-- The ways that an outline describes; `last` is the way to the node in front of it. -/
def readOutline : List α → List (Nat × α) → List (List α)
  | _, [] => []
  | last, (depth, name) :: items =>
    (last.take depth ++ [name]) :: readOutline (last.take depth ++ [name]) items

/-- Nodes in order are found again. -/
theorem readOutline_map_item {last : List α} {xs : List (Heading α)} (h : Ordered last xs) :
    readOutline last (xs.map item) = xs.map path := by
  induction xs generalizing last with
  | nil => rfl
  | cons x xs ih =>
    obtain ⟨hx, hxs⟩ := h
    have hway : last.take x.above.length = x.above := (List.prefix_iff_eq_take.mp hx).symm
    rw [List.map_cons, List.map_cons, item, readOutline, hway]
    exact congrArg _ (ih hxs)

/-- Lists of nodes below `base`, one behind the other: whatever comes in front of one of them
lies below `base` as well. -/
theorem ordered_flatMap {β : Type} {base : List α} {f : β → List (Heading α)} {ys : List β}
    {rest : List (Heading α)}
    (hf : ∀ y last rest, base <+: last → (∀ last', base <+: last' → Ordered last' rest) →
      Ordered last (f y ++ rest))
    (hrest : ∀ last, base <+: last → Ordered last rest) {last : List α} (hlast : base <+: last) :
    Ordered last (ys.flatMap f ++ rest) := by
  induction ys generalizing last with
  | nil => exact hrest last hlast
  | cons y ys ih =>
    rw [List.flatMap_cons, List.append_assoc]
    exact hf y last _ hlast (fun last' h ↦ ih h)

end Heading

end NetworkFileSystem.Base
