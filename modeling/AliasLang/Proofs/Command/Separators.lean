/-
The number of a numbered marker. The search tries one number after the other, and each number that it passes takes up a
bar of the commands as the opening one of a group. No two numbers share that bar, and the last bar opens no group, so
the search ends below the count of bars.

The marker that is found has no space in it and stands between spaces wherever it separates two commands. An occurrence
of it can therefore not reach across the end of a command, and as none lies inside of a command, all of them are
separators.
-/
import AliasLang.Proofs.Command.Pipeline

namespace AliasLang.Text

/-! ## Occurrences in joined parts -/

/-- An occurrence of a word without spaces lies on one side of every space. -/
theorem occurrence_beside_space {word : List Char} (hsp : ' ' ∉ word) {before after left right : List Char}
    (h : before ++ (word ++ after) = left ++ ' ' :: right) :
    before ++ word <+: left ∨ left ++ [' '] <+: before := by
  have hword : before ++ word <+: left ++ ' ' :: right := ⟨after, by rw [← h, List.append_assoc]⟩
  have hbefore : before <+: left ++ ' ' :: right := ⟨word ++ after, h⟩
  have hspace : left ++ [' '] <+: left ++ ' ' :: right := ⟨right, by simp⟩
  rcases Nat.lt_or_ge left.length (before ++ word).length with hlong | hshort
  · right
    rcases Nat.lt_or_ge left.length before.length with hlen | hlen
    · exact List.prefix_of_prefix_length_le hspace hbefore (by rw [List.length_append]; exact hlen)
    · -- The space would fall into the word.
      have hinto : left ++ [' '] <+: before ++ word :=
        List.prefix_of_prefix_length_le hspace hword (by rw [List.length_append]; exact hlong)
      obtain ⟨between, rfl⟩ : before <+: left :=
        List.prefix_of_prefix_length_le hbefore (List.prefix_append left _) hlen
      rw [List.append_assoc, List.prefix_append_right_inj] at hinto
      exact absurd (hinto.subset (by simp)) hsp
  · left
    exact List.prefix_of_prefix_length_le hword (List.prefix_append left _) hshort

/-- What stands before and after a separator of joined parts: the parts up to it and the parts from it on. -/
def Separates (marker : List Char) (parts : List (List Char)) (before after : List Char) : Prop :=
  ∃ left right, left ≠ [] ∧ right ≠ [] ∧ parts = left ++ right ∧
    before = (spaced marker).intercalate left ++ [' '] ∧ after = ' ' :: (spaced marker).intercalate right

theorem intercalate_append (sep : List Char) {right : List (List Char)} (hright : right ≠ []) :
    ∀ {left : List (List Char)}, left ≠ [] →
      sep.intercalate (left ++ right) = sep.intercalate left ++ (sep ++ sep.intercalate right)
  | [], h => absurd rfl h
  | [part], _ => by
    obtain ⟨next, rest, rfl⟩ := List.exists_cons_of_ne_nil hright
    simp [List.intercalate_cons_cons]
  | part :: next :: left, _ => by
    have ih := intercalate_append sep hright (List.cons_ne_nil next left)
    rw [List.cons_append] at ih
    rw [List.cons_append, List.cons_append, List.intercalate_cons_cons, List.intercalate_cons_cons, ih]
    simp only [List.append_assoc]

theorem Separates.cons {marker before after : List Char} {parts : List (List Char)} (part : List Char)
    (h : Separates marker parts before after) :
    Separates marker (part :: parts) (part ++ (spaced marker ++ before)) after := by
  obtain ⟨left, right, hleft, hright, rfl, rfl, rfl⟩ := h
  refine ⟨part :: left, right, by simp, hright, rfl, ?_, rfl⟩
  obtain ⟨next, rest, rfl⟩ := List.exists_cons_of_ne_nil hleft
  simp only [List.intercalate_cons_cons, List.append_assoc]

theorem Separates.occurrence {marker before after : List Char} {parts : List (List Char)}
    (h : Separates marker parts before after) : before ++ (marker ++ after) = (spaced marker).intercalate parts := by
  obtain ⟨left, right, hleft, hright, rfl, rfl, rfl⟩ := h
  rw [intercalate_append _ hright hleft]
  simp [spaced]

/-- Of parts that do not hold the marker, each occurrence of it separates two. -/
theorem separates_of_occurrence {marker : List Char} (hsp : ' ' ∉ marker) (hne : marker ≠ []) {after : List Char} :
    ∀ {parts : List (List Char)} {before : List Char}, (∀ part ∈ parts, ¬ marker <:+: part) →
      before ++ (marker ++ after) = (spaced marker).intercalate parts → Separates marker parts before after
  | [], before, _, h => by simp [hne] at h
  | [part], before, hparts, h => by
    rw [List.intercalate_singleton] at h
    exact absurd ⟨before, after, by rw [← h, List.append_assoc]⟩ (hparts part List.mem_cons_self)
  | part :: next :: rest, before, hparts, h => by
    obtain ⟨hpart, hrest⟩ := List.forall_mem_cons.mp hparts
    have htext : (spaced marker).intercalate (part :: next :: rest) =
        part ++ ' ' :: (marker ++ ' ' :: (spaced marker).intercalate (next :: rest)) := by
      simp [List.intercalate_cons_cons, spaced]
    rw [htext] at h
    rcases occurrence_beside_space hsp h with hin | ⟨rest₁, rfl⟩
    · exact absurd ((List.suffix_append before marker).isInfix.trans hin.isInfix) hpart
    · -- The occurrence starts with the separator after the first part, or it comes after that.
      have h₁ : rest₁ ++ (marker ++ after) = marker ++ ' ' :: (spaced marker).intercalate (next :: rest) := by
        simpa using h
      rcases occurrence_beside_space hsp h₁ with hin | ⟨rest₂, rfl⟩
      · obtain rfl : rest₁ = [] := by
          have hlen := hin.length_le
          rw [List.length_append] at hlen
          exact List.length_eq_zero_iff.mp (by omega)
        refine ⟨[part], next :: rest, by simp, by simp, rfl, by simp, ?_⟩
        simpa using h₁
      · have h₂ : rest₂ ++ (marker ++ after) = (spaced marker).intercalate (next :: rest) := by simpa using h₁
        have hsep := (separates_of_occurrence hsp hne hrest h₂).cons part
        simpa [spaced] using hsep

end AliasLang.Text

namespace AliasLang.Command

open Text

theorem Marker.mem_usedKeys {s : String} {k : Int} :
    k ∈ Marker.usedKeys s ↔ ∃ m ∈ Marker.found s.toList, m.key = k := by
  simp [Marker.usedKeys, List.mem_eraseDups]

/-- A number is used where a marker with this number is found: the bare bar has a key below all numbers. -/
theorem Marker.natCast_mem_usedKeys {s : String} {n : Nat} :
    (n : Int) ∈ Marker.usedKeys s ↔ Marker.numbered n ∈ Marker.found s.toList := by
  rw [Marker.mem_usedKeys]
  constructor
  · rintro ⟨m, hm, hkey⟩
    cases m with
    | bare => simp [Marker.key] at hkey
    | numbered k =>
      obtain rfl : k = n := Int.ofNat_inj.mp hkey
      exact hm
  · intro h
    exact ⟨_, h, rfl⟩

/-- **The number of a marker is the least free one, and the marker separates.** When a number is chosen for some
commands, then with one space between each two commands their text neither uses this number nor holds its marker, and
every smaller number is used there or has its marker in it. The number is less than the count of bars. Where the
commands are joined by the marker between spaces, each occurrence of the marker stands between two commands, and between
each two commands there is one. -/
theorem chosen_number_is_least_and_separates {commands : List String} {n : Nat}
    (h : Marker.choose commands = .numbered n) :
    ((n : Int) ∉ Marker.usedKeys (" ".intercalate commands) ∧
      ¬ (Marker.numbered n).text.toList <:+: (" ".intercalate commands).toList) ∧
    (∀ m < n, (m : Int) ∈ Marker.usedKeys (" ".intercalate commands) ∨
      (Marker.numbered m).text.toList <:+: (" ".intercalate commands).toList) ∧
    n < (" ".intercalate commands).toList.count '|' ∧
    ∀ before after : List Char,
      before ++ ((Marker.numbered n).text.toList ++ after) =
          ((" " ++ (Marker.numbered n).text ++ " ").intercalate commands).toList ↔
        Separates (Marker.numbered n).text.toList (commands.map String.toList) before after := by
  obtain ⟨hbar, rfl⟩ := choose_eq_numbered h
  obtain ⟨hfree, hlt, hleast⟩ := Marker.leastFree_spec hbar
  have hjoined : ∀ marker : String, ((" " ++ marker ++ " ").intercalate commands).toList =
      (spaced marker.toList).intercalate (commands.map String.toList) := by
    intro marker
    simp [String.toList_intercalate, spaced]
  refine ⟨?_, fun m hm => ?_, hlt, fun before after => ?_⟩
  · rw [Marker.natCast_mem_usedKeys]
    exact Marker.isFree_iff.mp hfree
  · have hnot := hleast m hm
    rw [Marker.isFree_iff, not_and_or, not_not, not_not] at hnot
    rwa [Marker.natCast_mem_usedKeys]
  · rw [hjoined]
    refine ⟨separates_of_occurrence (space_not_mem_text _) ?_ ?_, Separates.occurrence⟩
    · simp [Marker.toList_text_numbered]
    · exact List.forall_mem_map.mpr fun c hc => not_infix_of_choose h hc

/-- Overlapping groups, of which the scan finds the first one only, a number with a leading zero, and a bar beside the
end of a command. The numbers 0 to 3 are taken. -/
theorem overlapping_groups_leave_four :
    Marker.choose ["|1|2|", "|00|3|", "|"] = .numbered 4 ∧
    ((4 : Int) ∉ Marker.usedKeys "|1|2| |00|3| |" ∧ ¬ "|4|".toList <:+: "|1|2| |00|3| |".toList) ∧
    (∀ m : Nat, m < 4 → (m : Int) ∈ Marker.usedKeys "|1|2| |00|3| |" ∨
      (Marker.numbered m).text.toList <:+: "|1|2| |00|3| |".toList) ∧
    4 < "|1|2| |00|3| |".toList.count '|' ∧
    ∀ before after : List Char,
      before ++ ("|4|".toList ++ after) = "|1|2| |4| |00|3| |4| |".toList ↔
        Separates "|4|".toList ["|1|2|".toList, "|00|3|".toList, "|".toList] before after := by
  have hchosen : Marker.choose ["|1|2|", "|00|3|", "|"] = .numbered 4 := by decide +kernel
  exact ⟨hchosen, chosen_number_is_least_and_separates hchosen⟩

end AliasLang.Command
