import Mathlib.Data.List.Basic

/-!
# A stream in chunks of bounded size

Pieces are put into the newest chunk for as long as it does not grow beyond a bound, and
then into a new one. No piece is divided, so a piece that is larger than the bound has a
chunk of its own. The newest chunk is the first of the list.
-/

namespace Containers

universe u

namespace Chunks

variable {α : Type u} {bound : ℕ} {chunk piece : List α} {older chunks : List (List α)}

def put (bound : ℕ) : List (List α) → List α → List (List α)
  | [], piece => [piece]
  | chunk :: older, piece =>
      if chunk ≠ [] ∧ bound < chunk.length + piece.length then piece :: chunk :: older
      else (chunk ++ piece) :: older

theorem put_full (hne : chunk ≠ []) (h : bound < chunk.length + piece.length) :
    put bound (chunk :: older) piece = piece :: chunk :: older := if_pos ⟨hne, h⟩

theorem put_room (h : chunk = [] ∨ chunk.length + piece.length ≤ bound) :
    put bound (chunk :: older) piece = (chunk ++ piece) :: older := by
  apply if_neg
  rintro ⟨hne, hlt⟩
  rcases h with h | h
  · exact hne h
  · omega

theorem full_or_room (bound : ℕ) (chunk piece : List α) :
    (chunk ≠ [] ∧ bound < chunk.length + piece.length) ∨
      (chunk = [] ∨ chunk.length + piece.length ≤ bound) := by
  rcases Nat.lt_or_ge bound (chunk.length + piece.length) with h | h
  · by_cases hne : chunk = []
    · exact .inr (.inl hne)
    · exact .inl ⟨hne, h⟩
  · exact .inr (.inr h)

/-- What is put in comes after all that has been there. -/
theorem put_flatten (bound : ℕ) (chunks : List (List α)) (piece : List α) :
    (put bound chunks piece).reverse.flatten = chunks.reverse.flatten ++ piece := by
  cases chunks with
  | nil => simp [put]
  | cons chunk older =>
      rcases full_or_room bound chunk piece with ⟨hne, h⟩ | h
      · rw [put_full hne h]
        simp
      · rw [put_room h]
        simp

/-- A chunk is larger than the bound only if one piece is. -/
theorem put_length {size : ℕ} (hbound : bound ≤ size) (hpiece : piece.length ≤ size)
    (h : ∀ chunk ∈ chunks, chunk.length ≤ size) :
    ∀ chunk ∈ put bound chunks piece, chunk.length ≤ size := by
  cases chunks with
  | nil => exact List.forall_mem_singleton.mpr hpiece
  | cons first older =>
      rcases full_or_room bound first piece with ⟨hne, hfull⟩ | hroom
      · rw [put_full hne hfull]
        exact List.forall_mem_cons.mpr ⟨hpiece, h⟩
      · rw [put_room hroom]
        refine List.forall_mem_cons.mpr ⟨?_, (List.forall_mem_cons.mp h).2⟩
        rw [List.length_append]
        rcases hroom with rfl | hroom
        · rw [List.length_nil, Nat.zero_add]
          exact hpiece
        · exact Nat.le_trans hroom hbound

end Chunks

end Containers
