import ContractForge.Text.Split

/-!
# Texts and their lines

Cutting a text into lines undoes joining lines, if no line holds a line break
and there is at least one of them (`lines_unlines`).
-/

namespace ContractForge.Text

open List

/-- A text that is inserted into another one is inserted as it is. -/
@[simp] theorem toString_text : toString text = text := rfl

/-- There is always a first part. -/
theorem splitAt_ne_nil : splitAt separator chars ≠ [] := by
  cases chars with
  | nil => simp [splitAt]
  | cons =>
    rw [splitAt]
    split
    · simp
    · split <;> simp

/-- Splitting goes on afresh behind a separator. -/
theorem splitAt_append :
    splitAt separator (left ++ separator :: right) =
      splitAt separator left ++ splitAt separator right := by
  induction left with
  | nil => simp [splitAt]
  | cons _ rest ih =>
    rw [cons_append, splitAt, splitAt, ih]
    split
    · rfl
    · cases parts : splitAt separator rest with
      | nil => exact absurd parts splitAt_ne_nil
      | cons => rfl

theorem splitAt_of_not_mem (free : separator ∉ chars) : splitAt separator chars = [chars] := by
  induction chars with
  | nil => rfl
  | cons c _ ih =>
    rw [mem_cons, not_or] at free
    obtain ⟨differs, restFree⟩ := free
    have other : (c == separator) = false := by simpa using Ne.symm differs
    rw [splitAt, ih restFree, other]
    rfl

theorem not_mem_of_mem_splitAt (mem : part ∈ splitAt separator chars) : separator ∉ part := by
  induction chars generalizing part with
  | nil => simp_all [splitAt]
  | cons c rest ih =>
    rw [splitAt] at mem
    split at mem
    · obtain rfl | later := mem_cons.mp mem
      · exact not_mem_nil
      · exact ih later
    · rename_i differs
      have other : separator ≠ c := fun same => differs (by simp [same])
      cases parts : splitAt separator rest with
      | nil => exact absurd parts splitAt_ne_nil
      | cons =>
        rw [parts] at mem ih
        obtain rfl | later := mem_cons.mp mem
        · have free := ih mem_cons_self
          exact fun isMember => (mem_cons.mp isMember).elim other free
        · exact ih (mem_cons_of_mem _ later)

theorem lines_append_break : lines (left ++ "\n" ++ right) = lines left ++ lines right := by
  simp [lines, splitAt_append]

theorem lines_of_not_mem (free : '\n' ∉ text.toList) : lines text = [text] := by
  simp [lines, splitAt_of_not_mem free]

/-- A text after a blank line. -/
theorem lines_append_blank : lines (left ++ "\n\n" ++ right) = lines left ++ "" :: lines right := by
  have split : left ++ "\n\n" ++ right = left ++ "\n" ++ ("" ++ "\n" ++ right) := by
    apply String.toList_inj.mp
    simp
  rw [split, lines_append_break, lines_append_break]
  rfl

theorem lines_intercalate_blank (some : texts ≠ []) :
    lines ("\n\n".intercalate texts) = [""].intercalate (texts.map lines) := by
  induction texts with
  | nil => contradiction
  | cons _ rest ih =>
    cases rest with
    | nil => simp [List.intercalate]
    | cons =>
      have later := ih (by simp)
      rw [String.intercalate_cons_cons, lines_append_blank, later]
      simp [intercalate_cons_cons]

/-- Cutting joined lines gives the lines back. -/
theorem lines_unlines (some : texts ≠ [])
    (free : ∀ text ∈ texts, '\n' ∉ text.toList) : lines (unlines texts) = texts := by
  induction texts with
  | nil => contradiction
  | cons text rest ih =>
    have here : lines text = [text] := lines_of_not_mem (free text mem_cons_self)
    cases rest with
    | nil => simpa [unlines] using here
    | cons =>
      have later := ih (by simp) fun other mem =>
        free other (mem_cons_of_mem _ mem)
      rw [unlines] at later ⊢
      rw [String.intercalate_cons_cons, lines_append_break, here, later]
      rfl

/-- Lines that a text can be cut into: there is one, and none holds a line break. -/
structure AreLines (texts : List String) : Prop where
  some : texts ≠ []
  free : ∀ text ∈ texts, '\n' ∉ text.toList

theorem areLines_lines (text : String) : AreLines (lines text) where
  some := by simpa [lines] using splitAt_ne_nil
  free := by
    intro _ mem
    obtain ⟨_, isPart, rfl⟩ := mem_map.mp mem
    rw [String.toList_ofList]
    exact not_mem_of_mem_splitAt isPart

namespace AreLines

variable {texts : List String} (areLines : AreLines texts)
include areLines

theorem lines_unlines : lines (unlines texts) = texts :=
  Text.lines_unlines areLines.some areLines.free

theorem perm (perm : others.Perm texts) : AreLines others where
  some := fun none => areLines.some (nil_perm.mp (none ▸ perm))
  free := fun text mem => areLines.free text (perm.mem_iff.mp mem)

theorem unlines_inj (areOthers : AreLines others) :
    unlines texts = unlines others ↔ texts = others :=
  ⟨fun same => by rw [← areLines.lines_unlines, same, areOthers.lines_unlines], congrArg unlines⟩

end AreLines

end ContractForge.Text
