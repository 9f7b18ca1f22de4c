/-
A text as lines: some lines with a line feed after each, and what stands after the last of them. What is split off the
front of a text this way does not depend on what follows, but for the end of the last line.
-/
import AliasLang.Text.Lines

namespace AliasLang.Text

/-- Lines with a line feed after each. -/
def ended (full : List (List Char)) : List Char := full.flatMap (· ++ ['\n'])

theorem ended_cons (l : List Char) (full : List (List Char)) : ended (l :: full) = l ++ '\n' :: ended full := by
  simp [ended]

/-- A text is some lines and a rest. -/
theorem exists_ended (cs : List Char) :
    ∃ full w, cs = ended full ++ w ∧ (∀ l ∈ full, '\n' ∉ l) ∧ '\n' ∉ w := by
  induction cs with
  | nil => exact ⟨[], [], rfl, by simp, by simp⟩
  | cons c cs ih =>
    obtain ⟨full, w, rfl, hfull, hw⟩ := ih
    by_cases hc : c = '\n'
    · subst hc
      exact ⟨[] :: full, w, by simp [ended_cons], by simpa using hfull, hw⟩
    cases full with
    | nil => exact ⟨[], c :: w, rfl, by simp, by simp [Ne.symm hc, hw]⟩
    | cons l rest =>
      have hl : '\n' ∉ c :: l := by simp [Ne.symm hc, hfull l List.mem_cons_self]
      refine ⟨(c :: l) :: rest, w, by simp [ended_cons], ?_, hw⟩
      exact List.forall_mem_cons.mpr ⟨hl, fun l' hl' => hfull l' (List.mem_cons_of_mem _ hl')⟩

theorem count_ended {full : List (List Char)} (h : ∀ l ∈ full, '\n' ∉ l) : (ended full).count '\n' = full.length := by
  induction full with
  | nil => rfl
  | cons l full ih =>
    have hl : l.count '\n' = 0 := List.count_eq_zero.mpr (h l List.mem_cons_self)
    have hfull := ih fun l' hl' => h l' (List.mem_cons_of_mem _ hl')
    rw [ended_cons, List.count_append, List.count_cons_self, hl, hfull, List.length_cons]
    omega

theorem getLast?_ended {full : List (List Char)} (h : full ≠ []) : (ended full).getLast? = some '\n' := by
  obtain ⟨front, l, rfl⟩ := (List.eq_nil_or_concat full).resolve_left h
  simp [ended, List.flatMap_append]

theorem flatMap_ended {f : Char → List Char} (hf : f '\n' = ['\n']) (full : List (List Char)) :
    (ended full).flatMap f = ended (full.map (List.flatMap f)) := by
  induction full with
  | nil => rfl
  | cons l full ih => rw [ended_cons, List.map_cons, ended_cons, List.flatMap_append, List.flatMap_cons, ih, hf]; rfl

/-! ## Splitting -/

theorem splitLines_newline (cs : List Char) : splitLines ('\n' :: cs) = [] :: splitLines cs := rfl

/-- Characters that end no line go in front of the first one. -/
theorem splitLines_append {w : List Char} (hw : '\n' ∉ w) (cs : List Char) :
    ∃ first later, splitLines cs = first :: later ∧ splitLines (w ++ cs) = (w ++ first) :: later := by
  induction w with
  | nil =>
    cases hcs : splitLines cs with
    | cons first later => exact ⟨first, later, rfl, hcs⟩
    | nil =>
      -- there is always a last piece
      cases cs with
      | nil => cases hcs
      | cons c cs =>
        unfold splitLines pieces at hcs
        split at hcs
        · cases hcs
        · split at hcs <;> cases hcs
  | cons c w ih =>
    have hc : c ≠ '\n' := fun h => hw (h ▸ List.mem_cons_self)
    obtain ⟨first, later, hcs, hwcs⟩ := ih fun h => hw (List.mem_cons_of_mem c h)
    refine ⟨first, later, hcs, ?_⟩
    unfold splitLines at hwcs ⊢
    rw [List.cons_append, pieces, if_neg hc, hwcs]
    rfl

theorem splitLines_ended {full : List (List Char)} (h : ∀ l ∈ full, '\n' ∉ l) (cs : List Char) :
    splitLines (ended full ++ cs) = full ++ splitLines cs := by
  induction full with
  | nil => rfl
  | cons l full ih =>
    have hrest := ih fun l' hl' => h l' (List.mem_cons_of_mem _ hl')
    obtain ⟨first, later, hfirst, hl⟩ := splitLines_append (h l List.mem_cons_self) ('\n' :: (ended full ++ cs))
    rw [splitLines_newline, hrest] at hfirst
    cases hfirst
    rw [ended_cons, List.append_assoc, List.cons_append, hl, List.append_nil]
    rfl

/-! ## Lines by number -/

theorem endedLines_append (full : List (List Char)) (last : List Char) (later : List (List Char)) :
    endedLines (full ++ last :: later) = full.map dropReturn ++ endedLines (last :: later) := by
  induction full with
  | nil => rfl
  | cons l full ih =>
    rw [List.map_cons, List.cons_append, List.cons_append, ← ih]
    cases full <;> rfl

/-- A text that ends with a line feed has as many lines as line feeds. -/
theorem length_lines {s : String} (h : s.toList.getLast? = some '\n') : (lines s).length = s.toList.count '\n' := by
  obtain ⟨full, w, hs, hfull, hw⟩ := exists_ended s.toList
  have hnil : w = [] := by
    rcases List.eq_nil_or_concat w with hnil | ⟨front, c, rfl⟩
    · exact hnil
    · rw [hs, List.concat_eq_append, ← List.append_assoc, List.getLast?_concat] at h
      cases h
      simp at hw
  subst hnil
  rw [lines, hs, splitLines_ended hfull, List.append_nil, count_ended hfull, show splitLines [] = [[]] from rfl,
    endedLines_append]
  simp [endedLines]

/-- In the part of a line that ends with `w`, no character but a carriage return is lost. -/
theorem count_take_dropReturn {c : Char} (hc : c ≠ '\r') (w rest : List Char) :
    ((dropReturn (w ++ rest)).take w.length).count c = w.count c := by
  unfold dropReturn
  split
  · rename_i hlast
    cases rest with
    | nil =>
      rw [List.append_nil] at hlast ⊢
      obtain ⟨front, rfl⟩ := List.getLast?_eq_some_iff.mp hlast
      rw [List.dropLast_concat, List.take_of_length_le (by simp), List.count_append]
      simp [Ne.symm hc]
    | cons d rest =>
      rw [List.dropLast_append_of_ne_nil (by simp), List.take_left]
  · rw [List.take_left]

/-- What stands on a line before the end of `w`, as far as a character other than the carriage return goes. -/
theorem count_take_lineAt {c : Char} (hc : c ≠ '\r') {s : String} {full : List (List Char)} {w rest : List Char}
    (hs : s.toList = ended full ++ (w ++ rest)) (hfull : ∀ l ∈ full, '\n' ∉ l) (hw : '\n' ∉ w) :
    ((lineAt s (full.length + 1)).toList.take w.length).count c = w.count c := by
  obtain ⟨first, later, -, hsplit⟩ := splitLines_append hw rest
  have hlines : lines s = (full.map dropReturn ++ endedLines ((w ++ first) :: later)).map String.ofList := by
    rw [lines, hs, splitLines_ended hfull, hsplit, endedLines_append]
  have hline : (lineAt s (full.length + 1)).toList = (endedLines ((w ++ first) :: later)).headD [] := by
    rw [lineAt, hlines, Nat.add_sub_cancel, List.map_append]
    cases endedLines ((w ++ first) :: later) <;> simp [List.getD]
  rw [hline]
  cases later with
  | cons next later => exact count_take_dropReturn hc w first
  | nil =>
    rw [endedLines]
    split
    · rename_i hnil
      rw [(List.append_eq_nil_iff.mp hnil).1]
      rfl
    · rw [List.headD_cons, List.take_left]

/-- The line with a character that belongs to no line end. -/
theorem getElem?_lines {s : String} {full : List (List Char)} {w rest : List Char} {c : Char}
    (hs : s.toList = ended full ++ (w ++ c :: rest)) (hfull : ∀ l ∈ full, '\n' ∉ l) (hw : '\n' ∉ w)
    (hfeed : c ≠ '\n') (hreturn : c ≠ '\r') :
    ∃ tail, (lines s)[full.length]? = some (String.ofList (w ++ c :: tail)) := by
  have hwc : '\n' ∉ w ++ [c] := by simp [hw, Ne.symm hfeed]
  obtain ⟨first, later, -, hsplit⟩ := splitLines_append hwc rest
  have hlines : lines s = (full.map dropReturn ++ endedLines ((w ++ [c] ++ first) :: later)).map String.ofList := by
    rw [lines, hs, splitLines_ended hfull, List.append_cons, hsplit, endedLines_append]
  -- a carriage return that is left out comes after the character
  obtain ⟨tail, hline⟩ : ∃ tail, (endedLines ((w ++ [c] ++ first) :: later)).head? = some (w ++ [c] ++ tail) := by
    cases later with
    | nil => exact ⟨first, by simp [endedLines]⟩
    | cons next later =>
      rw [endedLines.eq_3 _ _ (List.cons_ne_nil _ _), List.head?_cons, dropReturn]
      split
      · rename_i hlast
        cases first with
        | nil => simp [hreturn] at hlast
        | cons d first => exact ⟨(d :: first).dropLast, by rw [List.dropLast_append_of_ne_nil (by simp)]⟩
      · exact ⟨first, rfl⟩
  refine ⟨tail, ?_⟩
  rw [hlines, List.getElem?_map, List.getElem?_append_right (by simp), List.length_map, Nat.sub_self,
    ← List.head?_eq_getElem?, hline, List.append_assoc]
  rfl

end AliasLang.Text
