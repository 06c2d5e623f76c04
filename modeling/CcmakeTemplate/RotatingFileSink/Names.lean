import CcmakeTemplate.RotatingFileSink.Model
import Mathlib.Data.List.DropRight

/-!
# The names of the rotated files

The number of a file goes between its name and its extension. Whatever dots and separators
the name of the first file has, the files get different names in the same directory.
-/

namespace RotatingFileSink

theorem rfind_none {c : Char} {s : Filename} (h : rfind c s = none) : c ∉ s := by
  induction s with
  | nil => exact List.not_mem_nil
  | cons first s ih =>
      unfold rfind at h
      split at h
      · cases h
      · rename_i hrest
        split at h
        · cases h
        · rename_i hfirst
          rw [List.mem_cons, not_or]
          exact ⟨fun hc => hfirst hc.symm, ih hrest⟩

theorem rfind_some {c : Char} {s : Filename} {i : ℕ} (h : rfind c s = some i) :
    ∃ front back, s = front ++ c :: back ∧ front.length = i ∧ c ∉ back := by
  induction s generalizing i with
  | nil => cases h
  | cons first s ih =>
      unfold rfind at h
      split at h
      · rename_i j hrest
        cases h
        obtain ⟨front, back, rfl, hlength, hback⟩ := ih hrest
        exact ⟨first :: front, back, rfl, congrArg (· + 1) hlength, hback⟩
      · rename_i hrest
        split at h
        · rename_i hfirst
          cases h
          exact ⟨[], s, congrArg (· :: s) hfirst, rfl, rfind_none hrest⟩
        · cases h

/-- The two parts make up the name, and the extension has no separator. -/
theorem split_spec (fname : Filename) :
    (splitByExtension fname).1 ++ (splitByExtension fname).2 = fname ∧
      '/' ∉ (splitByExtension fname).2 := by
  have hwhole : (fname, ([] : Filename)).1 ++ (fname, ([] : Filename)).2 = fname ∧
      '/' ∉ (fname, ([] : Filename)).2 := ⟨List.append_nil fname, List.not_mem_nil⟩
  unfold splitByExtension
  split
  · exact hwhole
  · rename_i ext_index hext
    split
    · exact hwhole
    · split
      · rename_i hfolder
        exact ⟨List.take_append_drop ext_index fname,
          fun h => rfind_none hfolder (List.mem_of_mem_drop h)⟩
      · rename_i folder_index hfolder
        split
        · exact hwhole
        · rename_i hlt
          refine ⟨List.take_append_drop ext_index fname, fun h => ?_⟩
          obtain ⟨front, back, rfl, hlength, hback⟩ := rfind_some hfolder
          -- the last separator is before the extension
          have hdrop : List.drop ext_index (front ++ '/' :: back) =
              back.drop (ext_index - folder_index - 1) := by
            rw [List.drop_append, List.drop_eq_nil_of_le (by omega), List.nil_append, hlength]
            have hpos : ext_index - folder_index = (ext_index - folder_index - 1) + 1 := by omega
            rw [hpos, List.drop_succ_cons, Nat.add_sub_cancel]
          rw [hdrop] at h
          exact hback (List.mem_of_mem_drop h)

/-- What the number puts between the two parts. -/
def suffix (index : ℕ) : Filename := if index = 0 then [] else '.' :: Nat.toDigits 10 index

theorem calcFilename_eq (filename : Filename) (index : ℕ) :
    calcFilename filename index =
      (splitByExtension filename).1 ++ suffix index ++ (splitByExtension filename).2 := by
  unfold calcFilename suffix
  split
  · rw [List.append_nil, (split_spec filename).1]
  · rfl

theorem suffix_injective : Function.Injective suffix := by
  intro i j h
  unfold suffix at h
  split at h <;> split at h
  · omega
  · cases h
  · cases h
  · have hdigits := (List.cons.inj h).2
    rw [← Nat.ofDigitChars_ten_toDigits (n := i), hdigits, Nat.ofDigitChars_ten_toDigits]

theorem calcFilename_inj {filename : Filename} {i j : ℕ}
    (h : calcFilename filename i = calcFilename filename j) : i = j := by
  rw [calcFilename_eq, calcFilename_eq, List.append_left_inj, List.append_right_inj] at h
  exact suffix_injective h

theorem suffix_separator (index : ℕ) : '/' ∉ suffix index := by
  unfold suffix
  split
  · exact List.not_mem_nil
  · rw [List.mem_cons, not_or]
    refine ⟨by decide, fun h => ?_⟩
    have hdigit := Nat.isDigit_of_mem_toDigits (by decide) (by decide) h
    exact absurd hdigit (by decide)

/-- The directory of a file, with the separator at its end. -/
def folder (fname : Filename) : Filename := fname.rdropWhile (· ≠ '/')

theorem folder_append (fname : Filename) {rest : Filename} (h : '/' ∉ rest) :
    folder (fname ++ rest) = folder fname := by
  unfold folder
  induction rest using List.reverseRecOn with
  | nil => rw [List.append_nil]
  | append_singleton rest c ih =>
      rw [List.mem_append, not_or] at h
      rw [← List.append_assoc, List.rdropWhile_concat_pos]
      · exact ih h.1
      · rw [decide_eq_true_iff]
        rintro rfl
        exact h.2 (List.mem_singleton_self _)

/-- The files have different names, and they are all in the directory of the first. -/
theorem calcFilename_distinct (filename : Filename) (i j : ℕ) :
    (calcFilename filename i = calcFilename filename j ↔ i = j) ∧
      folder (calcFilename filename i) = folder filename := by
  refine ⟨⟨calcFilename_inj, congrArg _⟩, ?_⟩
  obtain ⟨hjoin, hext⟩ := split_spec filename
  have hfirst := folder_append (splitByExtension filename).1 hext
  rw [hjoin] at hfirst
  rw [calcFilename_eq, List.append_assoc, hfirst]
  apply folder_append
  rw [List.mem_append, not_or]
  exact ⟨suffix_separator i, hext⟩

end RotatingFileSink
