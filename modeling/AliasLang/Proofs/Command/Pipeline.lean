/-
Reading pipelines back. In numbered mode every pipeline gives its commands back when it is split at its own marker. The
marker occurs in none of the commands, with one exception: when commands hold bars, but every one of them belongs to a
group whose digits are no number in range, then the scan finds no marker and the bare bar is chosen although it occurs.
-/
import AliasLang.Command.Pipeline
import AliasLang.Proofs.Command.Marker
import Mathlib.Data.List.Infix

namespace AliasLang.Command

open Text

/-- What a pipeline starts with. -/
def pipelineHead : String := "pipe _char:"

/-- Reads a pipeline: its marker, which ends at the first space, and the commands between the places where the marker
stands between spaces. -/
def readPipeline? (text : String) : Option (String × List String) :=
  if pipelineHead.toList.isPrefixOf text.toList then
    let rest := text.toList.drop pipelineHead.toList.length
    let marker := rest.takeWhile (· ≠ ' ')
    if (rest.drop marker.length).head? = some ' ' then
      some (String.ofList marker,
        (splitAll (spaced marker) 0 (rest.drop (marker.length + 1))).map String.ofList)
    else none
  else none

theorem toList_pipeline (marker : String) (commands : List String) :
    (pipeline marker commands).toList = pipelineHead.toList ++ (marker.toList ++
      ' ' :: (spaced marker.toList).intercalate (commands.map String.toList)) := by
  simp [pipeline, pipelineHead, spaced, String.toList_intercalate]

/-- Reading a pipeline splits its joined commands at the marker. -/
theorem readPipeline?_split {marker : String} (hsp : ' ' ∉ marker.toList) (commands : List String) :
    readPipeline? (pipeline marker commands) = some (marker,
      (splitAll (spaced marker.toList) 0 ((spaced marker.toList).intercalate (commands.map String.toList))).map
        String.ofList) := by
  have hp : pipelineHead.toList.isPrefixOf (pipeline marker commands).toList = true := by
    rw [List.isPrefixOf_iff_prefix, toList_pipeline]
    exact List.prefix_append _ _
  have hmark : ∀ body : List Char, (marker.toList ++ ' ' :: body).takeWhile (· ≠ ' ') = marker.toList := by
    intro body
    have hall : ∀ c ∈ marker.toList, decide (c ≠ ' ') = true := by
      intro c hc
      rw [decide_eq_true_eq]
      intro he
      exact hsp (he ▸ hc)
    rw [List.takeWhile_append_of_pos hall, List.takeWhile_cons_of_neg (by simp), List.append_nil]
  simp only [readPipeline?, if_pos hp]
  rw [toList_pipeline, List.drop_left, hmark]
  simp [← List.drop_drop]

theorem readPipeline?_pipeline {marker : String} {commands : List String} (hsp : ' ' ∉ marker.toList)
    (hne : commands ≠ []) (hclear : ∀ c ∈ commands, IsClear marker.toList c.toList) :
    readPipeline? (pipeline marker commands) = some (marker, commands) := by
  have hsplit : splitAll (spaced marker.toList) 0
      ((spaced marker.toList).intercalate (commands.map String.toList)) = commands.map String.toList := by
    apply splitAll_intercalate hsp (by simpa using hne)
    simpa using hclear
  rw [readPipeline?_split hsp, hsplit]
  simp [Function.comp_def]

theorem bar_or_digit_of_mem_text {m : Marker} {c : Char} (h : c ∈ m.text.toList) : c = '|' ∨ c.isDigit = true := by
  cases m with
  | bare => exact .inl (List.mem_singleton.mp h)
  | numbered n =>
    rw [Marker.toList_text_numbered, List.mem_cons, List.mem_append, List.mem_singleton] at h
    rcases h with h | h | h
    · exact .inl h
    · exact .inr (Nat.isDigit_of_mem_toDigits (by decide) (by decide) h)
    · exact .inl h

theorem space_not_mem_text (m : Marker) : ' ' ∉ m.text.toList := by
  intro h
  rcases bar_or_digit_of_mem_text h with h | h
  · exact absurd h (by decide)
  · exact absurd h (by decide)

/-! ## The chosen marker -/

theorem found_commands (commands : List String) :
    Marker.found (" ".intercalate commands).toList = (commands.map String.toList).flatMap Marker.found := by
  rw [String.toList_intercalate]
  exact Marker.found_intercalate _

theorem infix_intercalate {c : List Char} {commands : List (List Char)} (sep : List Char) (h : c ∈ commands) :
    c <:+: sep.intercalate commands := by
  induction commands with
  | nil => simp at h
  | cons a rest ih =>
    cases rest with
    | nil =>
      obtain rfl : c = a := by simpa using h
      simp
    | cons b rest =>
      rw [List.intercalate_cons_cons, List.append_assoc]
      rcases List.mem_cons.mp h with rfl | h
      · exact (List.prefix_append _ _).isInfix
      · exact (ih h).trans ⟨a ++ sep, [], by simp⟩

/-- The bare bar is chosen for unreadable commands only. -/
theorem choose_eq_bare_iff {commands : List String} :
    Marker.choose commands = .bare ↔ ∀ c ∈ commands, Marker.Unreadable c.toList := by
  have hiff : Marker.choose commands = .bare ↔ Marker.found (" ".intercalate commands).toList = [] := by
    simp only [Marker.choose, List.isEmpty_iff]
    split <;> simp_all
  rw [hiff, found_commands]
  simp [List.flatMap_eq_nil_iff, Marker.found_eq_nil_iff]

/-- A number is chosen only where there are bars. -/
theorem choose_eq_numbered {commands : List String} {n : Nat} (h : Marker.choose commands = .numbered n) :
    '|' ∈ (" ".intercalate commands).toList ∧ n = Marker.leastFree (" ".intercalate commands).toList := by
  simp only [Marker.choose] at h
  split at h
  · cases h
  · rename_i hne
    rw [List.isEmpty_iff] at hne
    cases h
    exact ⟨Marker.bar_mem_of_found_ne_nil hne, rfl⟩

/-- A numbered marker occurs in none of the commands it was chosen for. -/
theorem not_infix_of_choose {commands : List String} {n : Nat} (h : Marker.choose commands = .numbered n)
    {c : String} (hc : c ∈ commands) : ¬ (Marker.numbered n).text.toList <:+: c.toList := by
  obtain ⟨hbar, rfl⟩ := choose_eq_numbered h
  intro hin
  refine (Marker.isFree_iff.mp (Marker.leastFree_spec hbar).1).2 (hin.trans ?_)
  rw [String.toList_intercalate]
  exact infix_intercalate _ (List.mem_map_of_mem hc)

theorem choose_isClear {commands : List String} {c : String} (hc : c ∈ commands) :
    IsClear (Marker.choose commands).text.toList c.toList := by
  cases hm : Marker.choose commands with
  | bare => exact (choose_eq_bare_iff.mp hm c hc).isClear
  | numbered n => exact isClear_of_not_infix (not_infix_of_choose hm hc)

/-- The chosen marker occurs in a command exactly when some command holds a bar and all commands are unreadable. -/
theorem choose_occurs_iff {commands : List String} :
    (∃ c ∈ commands, (Marker.choose commands).text.toList <:+: c.toList) ↔
      (∃ c ∈ commands, '|' ∈ c.toList) ∧ ∀ c ∈ commands, Marker.Unreadable c.toList := by
  have hbar : ∀ c : List Char, ['|'] <:+: c ↔ '|' ∈ c := fun c => List.singleton_infix_iff '|' c
  constructor
  · rintro ⟨c, hc, hin⟩
    cases hm : Marker.choose commands with
    | bare =>
      rw [hm] at hin
      exact ⟨⟨c, hc, (hbar _).mp hin⟩, choose_eq_bare_iff.mp hm⟩
    | numbered n =>
      rw [hm] at hin
      exact absurd hin (not_infix_of_choose hm hc)
  · rintro ⟨⟨c, hc, hin⟩, hall⟩
    rw [choose_eq_bare_iff.mpr hall]
    exact ⟨c, hc, (hbar _).mpr hin⟩

/-! ## Reading back -/

/-- The commands of a pipeline that is made of `commands`: a single one has the null command in front. -/
def pipedCommands (commands : List String) : List String :=
  if commands.length = 1 then nullCommand :: commands else commands

theorem pipelined?_eq_some {force : Bool} {commands : List String}
    (h : 2 ≤ commands.length ∨ commands.length = 1 ∧ force = true) :
    pipelined? force commands = some (pipedCommands commands) := by
  match commands, h with
  | [], h => simp at h
  | [c], h => simpa [pipelined?, pipedCommands] using h
  | c :: d :: rest, _ => simp [pipelined?, pipedCommands]

theorem pipedCommands_ne_nil {commands : List String} (h : commands ≠ []) : pipedCommands commands ≠ [] := by
  unfold pipedCommands
  split
  · simp
  · exact h

theorem bar_not_mem_nullCommand : '|' ∉ nullCommand.toList := by decide

theorem text_not_infix_nullCommand (m : Marker) : ¬ m.text.toList <:+: nullCommand.toList := by
  intro hin
  apply bar_not_mem_nullCommand
  apply hin.subset
  cases m with
  | bare => decide
  | numbered n => simp [Marker.toList_text_numbered]

/-- The null command holds no bar, so it makes no difference to when the marker occurs in a command. -/
theorem choose_pipedCommands_occurs_iff (commands : List String) :
    (∃ c ∈ commands, (Marker.choose (pipedCommands commands)).text.toList <:+: c.toList) ↔
      (∃ c ∈ commands, '|' ∈ c.toList) ∧ ∀ c ∈ commands, Marker.Unreadable c.toList := by
  have hiff := @choose_occurs_iff (pipedCommands commands)
  have hnull := text_not_infix_nullCommand (Marker.choose (pipedCommands commands))
  by_cases hone : commands.length = 1
  · simp only [pipedCommands, if_pos hone, List.exists_mem_cons_iff, List.forall_mem_cons] at hiff hnull ⊢
    simpa [hnull, bar_not_mem_nullCommand, Marker.Unreadable.plain bar_not_mem_nullCommand] using hiff
  · simpa only [pipedCommands, if_neg hone] using hiff

/-- Where the marker occurs in a command, it is the bare bar. -/
theorem text_choose_of_occurs {commands : List String}
    (h : ∃ c ∈ commands, (Marker.choose (pipedCommands commands)).text.toList <:+: c.toList) :
    (Marker.choose (pipedCommands commands)).text = "|" := by
  have hunreadable : ∀ c ∈ pipedCommands commands, Marker.Unreadable c.toList := by
    unfold pipedCommands
    split
    · exact List.forall_mem_cons.mpr
        ⟨.plain bar_not_mem_nullCommand, ((choose_pipedCommands_occurs_iff commands).mp h).2⟩
    · exact ((choose_pipedCommands_occurs_iff commands).mp h).2
  rw [choose_eq_bare_iff.mpr hunreadable]
  rfl

/-- **A numbered pipeline reads back.** The text is the name of the command, the marker, and the commands in order with
the marker between spaces between them, behind `null` when a single one was forced into a pipeline. Splitting at the
marker gives exactly these. The marker occurs in one of the commands exactly when some command holds a bar and every bar
of every command belongs to a group that is no number in range, and then it is the bare bar. -/
theorem numbered_pipeline_reads_back (drawn : String) (force : Bool) (commands : List String)
    (h : 2 ≤ commands.length ∨ commands.length = 1 ∧ force = true) :
    let piped := if commands.length = 1 then "null" :: commands else commands
    ∃ marker, assemble .numbered drawn force commands =
        "pipe _char:" ++ marker ++ " " ++ (" " ++ marker ++ " ").intercalate piped ∧
      readPipeline? (assemble .numbered drawn force commands) = some (marker, piped) ∧
      ((∃ c ∈ commands, marker.toList <:+: c.toList) ↔
        (∃ c ∈ commands, '|' ∈ c.toList) ∧ ∀ c ∈ commands, Marker.Unreadable c.toList) ∧
      ((∃ c ∈ commands, marker.toList <:+: c.toList) → marker = "|") := by
  intro piped
  have hne : commands ≠ [] := by
    rintro rfl
    simp at h
  have hassemble : assemble .numbered drawn force commands =
      pipeline (Marker.choose (pipedCommands commands)).text (pipedCommands commands) := by
    simp only [assemble, pipelined?_eq_some h, markerText]
  refine ⟨(Marker.choose (pipedCommands commands)).text, hassemble, ?_, choose_pipedCommands_occurs_iff commands,
    text_choose_of_occurs⟩
  rw [hassemble]
  exact readPipeline?_pipeline (space_not_mem_text _) (pipedCommands_ne_nil hne) fun c hc => choose_isClear hc

/-- Overlapping groups and an empty command. -/
theorem overlapping_pipeline_reads_back :
    2 ≤ ["|1|2|", "", "a | b |0|"].length ∧
      assemble .numbered "" false ["|1|2|", "", "a | b |0|"] = "pipe _char:|3| |1|2| |3|  |3| a | b |0|" ∧
        readPipeline? "pipe _char:|3| |1|2| |3|  |3| a | b |0|" = some ("|3|", ["|1|2|", "", "a | b |0|"]) ∧
          ¬ ∃ c ∈ ["|1|2|", "", "a | b |0|"], "|3|".toList <:+: c.toList := by
  have hlength : 2 ≤ ["|1|2|", "", "a | b |0|"].length := by decide
  obtain ⟨marker, -, hread, -, hbare⟩ :=
    numbered_pipeline_reads_back "" false ["|1|2|", "", "a | b |0|"] (.inl hlength)
  have htext : assemble .numbered "" false ["|1|2|", "", "a | b |0|"] = "pipe _char:|3| |1|2| |3|  |3| a | b |0|" := by
    decide +kernel
  have hsplit : readPipeline? "pipe _char:|3| |1|2| |3|  |3| a | b |0|" = some ("|3|", ["|1|2|", "", "a | b |0|"]) := by
    decide +kernel
  rw [htext] at hread
  obtain ⟨rfl, -⟩ := Prod.mk.inj (Option.some.inj (hread.symm.trans hsplit))
  exact ⟨hlength, htext, hsplit, fun hoccurs => absurd (hbare hoccurs) (by decide)⟩

/-- The marker of these commands is the bare bar, which the first of them holds. -/
theorem bare_bar_occurs_in_command :
    readPipeline? (assemble .numbered "" false ["|99999999999999999999|", "z"]) =
        some ("|", ["|99999999999999999999|", "z"]) ∧
      "|".toList <:+: "|99999999999999999999|".toList :=
  ⟨by decide +kernel, ⟨[], "99999999999999999999|".toList, by decide⟩⟩

end AliasLang.Command
