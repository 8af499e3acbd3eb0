/-
Rows joined with something between them, and texts that are cut.
-/
import Mathlib.Data.List.Basic

set_option autoImplicit false

namespace ChomskyForm

/-! ## 1. Joining -/

/-- What occurs in joined rows occurs in a row or between two of them. -/
theorem mem_intercalate {α : Type} {between : List α} {pieces : List (List α)} {x : α}
    (h : x ∈ between.intercalate pieces) : x ∈ between ∨ ∃ piece ∈ pieces, x ∈ piece := by
  induction pieces with
  -- a single row is joined with nothing
  | nil => cases h
  | cons first rest ih =>
    cases rest with
    | nil =>
      rw [List.intercalate_singleton] at h
      exact .inr ⟨first, List.mem_cons_self, h⟩
    | cons second rest =>
      rw [List.intercalate_cons_cons, List.mem_append, List.mem_append] at h
      rcases h with (h | h) | h
      · exact .inr ⟨first, List.mem_cons_self, h⟩
      · exact .inl h
      · rcases ih h with h | ⟨piece, hp, h⟩
        · exact .inl h
        · exact .inr ⟨piece, List.mem_cons_of_mem _ hp, h⟩

/-- Joining can be done before or after every element is replaced. -/
theorem map_intercalate {α β : Type} (f : α → β) (between : List α) (pieces : List (List α)) :
    (between.intercalate pieces).map f = (between.map f).intercalate (pieces.map (List.map f)) := by
  induction pieces with
  | nil => rfl
  | cons first rest ih =>
    cases rest with
    | nil => rw [List.intercalate_singleton, List.map_singleton, List.intercalate_singleton]
    | cons second rest =>
      rw [List.intercalate_cons_cons, List.map_append, List.map_append, ih, List.map_cons,
        List.map_cons, List.map_cons, List.intercalate_cons_cons]

/-- Two joined parts, both with a row, are joined by what stands between all others. -/
theorem intercalate_append {α : Type} (between : List α) {left right : List (List α)}
    (hl : left ≠ []) (hr : right ≠ []) :
    between.intercalate (left ++ right) =
      between.intercalate left ++ between ++ between.intercalate right := by
  induction left with
  | nil => exact absurd rfl hl
  | cons first rest ih =>
    cases rest with
    | nil =>
      rw [List.singleton_append, List.intercalate_cons_of_ne_nil hr, List.intercalate_singleton]
    | cons second rest =>
      rw [List.cons_append, List.intercalate_cons_of_ne_nil (by simp), ih (List.cons_ne_nil _ _),
        List.intercalate_cons_cons]
      simp only [List.append_assoc]

/-- Nonempty rows make a nonempty whole, if there are any. -/
theorem intercalate_ne_nil {α : Type} (between : List α) {rows : List (List α)} (any : rows ≠ [])
    (nonempty : ∀ row ∈ rows, row ≠ []) : between.intercalate rows ≠ [] := by
  obtain ⟨first, rest, rfl⟩ := List.exists_cons_of_ne_nil any
  obtain ⟨x, others, e⟩ := List.exists_cons_of_ne_nil (nonempty first List.mem_cons_self)
  cases rest with
  | nil =>
    rw [List.intercalate_singleton, e]
    exact List.cons_ne_nil _ _
  | cons second rest =>
    rw [List.intercalate_cons_cons, e]
    exact List.cons_ne_nil _ _

/-- The row in front of others, with the one element that stands between. -/
theorem intercalate_map_cons {α β : Type} (between : β) (f : α → List β) (x : α) {others : List α}
    (any : others ≠ []) :
    [between].intercalate ((x :: others).map f) =
      f x ++ between :: [between].intercalate (others.map f) := by
  have more : others.map f ≠ [] := fun h => any (List.map_eq_nil_iff.1 h)
  rw [List.map_cons, List.intercalate_cons_of_ne_nil more, List.append_assoc]
  rfl

/-- Behind every row but the last stands what is between them. -/
theorem intercalate_concat {α : Type} (between : List α) (pieces : List (List α))
    (last : List α) :
    between.intercalate (pieces ++ [last]) = pieces.flatMap (· ++ between) ++ last := by
  induction pieces with
  | nil => exact List.intercalate_singleton
  | cons first rest ih =>
    rw [List.cons_append, List.intercalate_cons_of_ne_nil (by simp), ih, List.flatMap_cons,
      List.append_assoc, List.append_assoc, List.append_assoc]

/-! ## 2. Cutting -/

/-- No piece of a text holds the character at which the text was cut. -/
theorem notMem_of_mem_splitOn {c : Char} {text piece : List Char}
    (h : piece ∈ text.splitOn c) : c ∉ piece := by
  induction text generalizing piece with
  | nil =>
    rw [List.splitOn_nil, List.mem_singleton] at h
    rw [h]
    exact List.not_mem_nil
  | cons d rest ih =>
    rw [List.splitOn_cons_eq_if_modifyHead] at h
    -- the character begins a new piece, or is in front of the first one
    by_cases e : d = c
    · rw [if_pos (beq_iff_eq.2 e), List.mem_cons] at h
      rcases h with rfl | h
      · exact List.not_mem_nil
      · exact ih h
    · rw [if_neg (fun e' => e (beq_iff_eq.1 e'))] at h
      obtain ⟨first, others, split⟩ := List.exists_cons_of_ne_nil (List.splitOn_ne_nil c rest)
      rw [split, List.modifyHead_cons, List.mem_cons] at h
      rcases h with rfl | h
      · rw [List.mem_cons, not_or]
        exact ⟨fun e' => e e'.symm, ih (split ▸ List.mem_cons_self)⟩
      · exact ih (split ▸ List.mem_cons_of_mem _ h)

end ChomskyForm
