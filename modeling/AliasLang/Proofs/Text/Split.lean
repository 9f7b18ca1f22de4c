/-
Splitting a text at a marker that stands between single spaces. Splitting undoes joining for every marker without
spaces, as long as no part holds the marker between spaces or ends with a space and the marker: the space of the
separator itself would then complete an occurrence that begins too early. The last part may end so, since no separator
follows it; apart from that the condition is also necessary.
-/
import AliasLang.Text.Split

namespace AliasLang.Text

/-! ## Occurrences -/

theorem occursIn_iff {part text : List Char} : occursIn part text = true ↔ part <:+: text := by
  induction text with
  | nil => simp [occursIn, splitOnce?]
  | cons c cs ih =>
    rw [List.infix_cons_iff, ← ih]
    simp only [occursIn, splitOnce?]
    split
    · rename_i h
      simpa using Or.inl (List.isPrefixOf_iff_prefix.mp h)
    · rename_i h
      rw [List.isPrefixOf_iff_prefix] at h
      simp [h]

theorem splitOnce?_eq_some {sep before after : List Char} : ∀ {text : List Char},
    splitOnce? sep text = some (before, after) → text = before ++ (sep ++ after)
  | [], h => by
    rw [splitOnce?] at h
    split at h
    · rename_i hsep
      cases h
      rw [List.isEmpty_iff.mp hsep]
      rfl
    · cases h
  | c :: cs, h => by
    rw [splitOnce?] at h
    split at h
    · rename_i hsep
      cases h
      exact (List.prefix_iff_eq_append.mp (List.isPrefixOf_iff_prefix.mp hsep)).symm
    · obtain ⟨⟨front, rest⟩, hrest, he⟩ := Option.map_eq_some_iff.mp h
      cases he
      rw [splitOnce?_eq_some hrest]
      rfl

/-- Nothing is split off before the first character of the separator. -/
theorem splitOnce?_append {c : Char} (sep after : List Char) : ∀ {before : List Char}, c ∉ before →
    splitOnce? (c :: sep) (before ++ (c :: sep ++ after)) = some (before, after)
  | [], _ => by simp [splitOnce?]
  | b :: before, h => by
    rw [List.mem_cons, not_or] at h
    have hno : ¬ (c :: sep).isPrefixOf (b :: (before ++ (c :: sep ++ after))) = true := by simp [h.1]
    rw [List.cons_append, splitOnce?, if_neg hno, splitOnce?_append sep after h.2]
    rfl

theorem splitOnce?_eq_none {c : Char} (sep : List Char) {text : List Char} (h : c ∉ text) :
    splitOnce? (c :: sep) text = none := by
  cases hs : splitOnce? (c :: sep) text with
  | none => rfl
  | some parts =>
    rw [splitOnce?_eq_some hs] at h
    exact absurd (by simp) h

/-! ## All pieces -/

/-- The pieces of a text between the occurrences of `sep`, which are taken from left to right and without overlap. The
next `passed` characters still belong to an occurrence. -/
def splitAll (sep : List Char) : (passed : Nat) → List Char → List (List Char)
  | _, [] => [[]]
  | passed + 1, _ :: cs => splitAll sep passed cs
  | 0, c :: cs =>
    if sep.isPrefixOf (c :: cs) then [] :: splitAll sep (sep.length - 1) cs
    else match splitAll sep 0 cs with
      | [] => [[c]]
      | piece :: rest => (c :: piece) :: rest

theorem splitAll_passed (sep : List Char) : ∀ (n : Nat) (cs : List Char),
    splitAll sep n cs = splitAll sep 0 (cs.drop n)
  | 0, _ => rfl
  | _ + 1, [] => rfl
  | n + 1, _ :: cs => by
    rw [splitAll, List.drop_succ_cons]
    exact splitAll_passed sep n cs

theorem splitAll_ne_nil (sep cs : List Char) : splitAll sep 0 cs ≠ [] := by
  cases cs with
  | nil => simp [splitAll]
  | cons c cs =>
    rw [splitAll]
    split
    · simp
    · split <;> simp

theorem splitAll_sep {sep : List Char} (hsep : sep ≠ []) (rest : List Char) :
    splitAll sep 0 (sep ++ rest) = [] :: splitAll sep 0 rest := by
  obtain ⟨c, cs, rfl⟩ := List.exists_cons_of_ne_nil hsep
  have hp : (c :: cs).isPrefixOf (c :: (cs ++ rest)) = true :=
    List.isPrefixOf_iff_prefix.mpr (List.prefix_append (c :: cs) rest)
  rw [List.cons_append, splitAll, if_pos hp, splitAll_passed]
  simp

/-- A part is split off before the first occurrence of the separator. -/
theorem splitAll_part {sep : List Char} (hsep : sep ≠ []) (rest : List Char) : ∀ (part : List Char),
    (∀ a, a ≠ [] → a <:+ part → ¬ sep <+: a ++ (sep ++ rest)) →
      splitAll sep 0 (part ++ (sep ++ rest)) = part :: splitAll sep 0 rest
  | [], _ => splitAll_sep hsep rest
  | c :: cs, h => by
    have hc : ¬ sep.isPrefixOf (c :: (cs ++ (sep ++ rest))) = true := by
      rw [List.isPrefixOf_iff_prefix]
      exact h (c :: cs) (by simp) (List.suffix_refl _)
    have ih := splitAll_part hsep rest cs fun a ha hs => h a ha (hs.trans (List.suffix_cons c cs))
    rw [List.cons_append, splitAll, if_neg hc, ih]

theorem splitAll_none {sep : List Char} : ∀ {part : List Char}, ¬ sep <:+: part → splitAll sep 0 part = [part]
  | [], _ => rfl
  | c :: cs, h => by
    rw [List.infix_cons_iff, not_or] at h
    have hc : ¬ sep.isPrefixOf (c :: cs) = true := by
      rw [List.isPrefixOf_iff_prefix]
      exact h.1
    rw [splitAll, if_neg hc, splitAll_none h.2]

/-! ## Markers between spaces -/

/-- A marker with a space before and after it. -/
def spaced (marker : List Char) : List Char := ' ' :: (marker ++ [' '])

theorem spaced_ne_nil (marker : List Char) : spaced marker ≠ [] := by simp [spaced]

theorem space_prefix_spaced (marker a rest : List Char) : a ++ [' '] <+: a ++ (spaced marker ++ rest) := by
  rw [List.prefix_append_right_inj]
  exact ⟨marker ++ [' '] ++ rest, by simp [spaced]⟩

/-- A part in which the marker does not stand between spaces, the space after the part included. -/
def IsClear (marker part : List Char) : Prop := ¬ spaced marker <:+: part ++ [' ']

theorem isClear_of_not_infix {marker part : List Char} (h : ¬ marker <:+: part) : IsClear marker part := by
  intro hs
  have hm : marker ++ [' '] <:+: part ++ [' '] := (List.suffix_cons ' ' _).isInfix.trans hs
  rw [List.infix_concat_iff] at hm
  rcases hm with hm | hm
  · obtain ⟨a, ha⟩ := hm
    rw [← List.append_assoc] at ha
    have hpart : a ++ marker = part := (List.append_inj' ha rfl).1
    exact h ⟨a, [], by simpa using hpart⟩
  · exact h ((List.prefix_append marker [' ']).isInfix.trans hm)

/-- No occurrence of a spaced marker begins inside a clear part that is followed by one. -/
theorem IsClear.no_early_start {marker part a rest : List Char} (h : IsClear marker part) (hsp : ' ' ∉ marker)
    (ha : a ≠ []) (hsuf : a <:+ part) : ¬ spaced marker <+: a ++ (spaced marker ++ rest) := by
  intro hp
  have hnext := space_prefix_spaced marker a rest
  rcases Nat.lt_or_ge marker.length a.length with hlen | hlen
  · -- The occurrence ends at the latest with the space after the part.
    have hin : spaced marker <+: a ++ [' '] :=
      List.prefix_of_prefix_length_le hp hnext (by simp [spaced]; omega)
    obtain ⟨b, rfl⟩ := hsuf
    exact h (hin.isInfix.trans ⟨b, [], by simp⟩)
  · -- The space after the part falls into the marker.
    have hin : a ++ [' '] <+: spaced marker :=
      List.prefix_of_prefix_length_le hnext hp (by simp [spaced]; omega)
    obtain ⟨c, cs, rfl⟩ := List.exists_cons_of_ne_nil ha
    rw [spaced, List.cons_append, List.cons_prefix_cons] at hin
    have hm : cs ++ [' '] <+: marker :=
      List.prefix_of_prefix_length_le hin.2 (List.prefix_append marker [' ']) (by simpa using hlen)
    exact hsp (hm.subset (by simp))

/-- The first piece of a text ends where the separator occurs first. -/
theorem not_prefix_of_head_splitAll {sep tail : List Char} : ∀ {part : List Char},
    (splitAll sep 0 (part ++ tail)).head? = some part → ∀ a, a ≠ [] → a <:+ part → ¬ sep <+: a ++ tail
  | [], _, _, ha, hsuf => absurd (List.suffix_nil.mp hsuf) ha
  | c :: cs, h, a, ha, hsuf => by
    rw [List.cons_append, splitAll] at h
    split at h
    · simp at h
    · rename_i hno
      obtain ⟨piece, rest, hpieces⟩ := List.exists_cons_of_ne_nil (splitAll_ne_nil sep (cs ++ tail))
      have hhead : (splitAll sep 0 (cs ++ tail)).head? = some cs := by
        rw [hpieces] at h ⊢
        simpa using h
      rcases List.suffix_cons_iff.mp hsuf with rfl | hsuf
      · rwa [List.isPrefixOf_iff_prefix] at hno
      · exact not_prefix_of_head_splitAll hhead a ha hsuf

/-- What is split off before a separator is clear of the marker. -/
theorem isClear_of_head_splitAll {marker part rest : List Char}
    (h : (splitAll (spaced marker) 0 (part ++ (spaced marker ++ rest))).head? = some part) : IsClear marker part := by
  rintro ⟨before, after, hin⟩
  -- An occurrence is at least two characters long, so that it begins inside the part.
  have hlen : before.length < part.length := by
    have := congrArg List.length hin
    simp [spaced] at this
    omega
  obtain ⟨a, rfl⟩ : before <+: part :=
    List.prefix_of_prefix_length_le ⟨spaced marker ++ after, by rw [← hin, List.append_assoc]⟩
      (List.prefix_append part [' ']) (by omega)
  have ha : a ≠ [] := by
    rintro rfl
    simp at hlen
  apply not_prefix_of_head_splitAll h a ha (List.suffix_append before a)
  have hspace : spaced marker ++ after = a ++ [' '] := by simpa using hin
  exact List.IsPrefix.trans ⟨after, hspace⟩ (space_prefix_spaced marker a rest)

theorem not_infix_of_splitAll {sep part : List Char} (hsep : sep ≠ []) (h : splitAll sep 0 part = [part]) :
    ¬ sep <:+: part := by
  rintro ⟨before, after, rfl⟩
  have hhead : (splitAll sep 0 (before ++ sep ++ after ++ [])).head? = some (before ++ sep ++ after) := by
    rw [List.append_nil, h]
    rfl
  apply not_prefix_of_head_splitAll hhead (sep ++ after) (by simp [hsep])
  · rw [List.append_assoc]
    exact List.suffix_append before _
  · rw [List.append_nil]
    exact List.prefix_append sep after

/-- Parts that come back when they are joined and split again: those before a separator are clear of the marker, and the
last one does not hold it between spaces. -/
def Separable (marker : List Char) (parts : List (List Char)) : Prop :=
  (∀ part ∈ parts.dropLast, IsClear marker part) ∧ ∀ part ∈ parts.getLast?, ¬ spaced marker <:+: part

/-- **Splitting undoes joining** for exactly those parts that are separable. -/
theorem splitAll_intercalate_iff {marker : List Char} (hsp : ' ' ∉ marker) : ∀ {parts : List (List Char)}, parts ≠ [] →
    (splitAll (spaced marker) 0 ((spaced marker).intercalate parts) = parts ↔ Separable marker parts)
  | [], h => absurd rfl h
  | [part], _ => by
    rw [List.intercalate_singleton]
    constructor
    · intro h
      simpa [Separable] using not_infix_of_splitAll (spaced_ne_nil marker) h
    · intro h
      exact splitAll_none (h.2 part rfl)
  | part :: next :: parts, _ => by
    have hsplit : Separable marker (part :: next :: parts) ↔
        IsClear marker part ∧ Separable marker (next :: parts) := by
      simp [Separable, and_assoc]
    have ih := splitAll_intercalate_iff hsp (List.cons_ne_nil next parts)
    rw [List.intercalate_cons_cons, List.append_assoc, hsplit, ← ih]
    have hfirst : IsClear marker part → splitAll (spaced marker) 0
        (part ++ (spaced marker ++ (spaced marker).intercalate (next :: parts))) =
          part :: splitAll (spaced marker) 0 ((spaced marker).intercalate (next :: parts)) := fun hclear =>
      splitAll_part (spaced_ne_nil marker) _ _ fun a ha hs => hclear.no_early_start hsp ha hs
    constructor
    · intro h
      have hclear : IsClear marker part := isClear_of_head_splitAll (by rw [h]; rfl)
      rw [hfirst hclear] at h
      exact ⟨hclear, (List.cons.inj h).2⟩
    · rintro ⟨hclear, h⟩
      rw [hfirst hclear, h]

theorem separable_of_isClear {marker : List Char} {parts : List (List Char)}
    (h : ∀ part ∈ parts, IsClear marker part) : Separable marker parts := by
  refine ⟨fun part hpart => h part (List.dropLast_subset parts hpart), fun part hpart hin => ?_⟩
  exact h part (List.mem_of_mem_getLast? hpart) (hin.trans (List.prefix_append part [' ']).isInfix)

/-- Parts that are clear of the marker come back. -/
theorem splitAll_intercalate {marker : List Char} (hsp : ' ' ∉ marker) {parts : List (List Char)} (hne : parts ≠ [])
    (h : ∀ part ∈ parts, IsClear marker part) :
    splitAll (spaced marker) 0 ((spaced marker).intercalate parts) = parts :=
  (splitAll_intercalate_iff hsp hne).mpr (separable_of_isClear h)

end AliasLang.Text
