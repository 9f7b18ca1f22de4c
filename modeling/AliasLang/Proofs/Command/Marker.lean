/-
Numbered markers. The scan of a text for markers passes over a group of bars and digits whose digits are no number in
range, so a text may hold bars although no marker is found in it. Apart from these texts the chosen marker occurs in
none of the commands: a free number is always found below the count of bars, because every number that is not free
takes up a bar, and the last bar starts no group.
-/
import AliasLang.Command.Marker
import AliasLang.Proofs.Text.Split
import Mathlib.Data.List.Perm.Subperm

namespace AliasLang.Command.Marker

open Text

theorem toList_text_numbered (n : Nat) :
    (Marker.numbered n).text.toList = '|' :: (Nat.toDigits 10 n ++ ['|']) := by
  simp [text, toString, Nat.toList_repr]

/-! ## Groups -/

theorem isDecimalDigit_bar : isDecimalDigit '|' = false := by decide

theorem isDecimalDigit_space : isDecimalDigit ' ' = false := by decide

theorem isDecimalDigit_of_isDigit {c : Char} (h : c.isDigit = true) : isDecimalDigit c = true := by
  have hlt : c.toNat < 0x80 := by
    have h9 : c.toNat ≤ 57 := (Char.isDigit_iff_toNat.mp h).2
    omega
  rw [isDecimalDigit, if_pos hlt, h]

/-- A run of digits ends before a character that is none. -/
theorem takeWhile_digits {ds rest : List Char} {c : Char} (hds : ∀ d ∈ ds, isDecimalDigit d = true)
    (hc : isDecimalDigit c = false) : (ds ++ c :: rest).takeWhile isDecimalDigit = ds := by
  rw [List.takeWhile_append_of_pos hds, List.takeWhile_cons_of_neg (by simp [hc]), List.append_nil]

/-- Text whose digits are followed by a bar, taken apart. -/
theorem eq_digits_bar {cs : List Char}
    (h : (cs.drop (cs.takeWhile isDecimalDigit).length).head? = some '|') :
    cs = cs.takeWhile isDecimalDigit ++ '|' :: cs.drop ((cs.takeWhile isDecimalDigit).length + 1) := by
  obtain ⟨rest, hrest⟩ := List.head?_eq_some_iff.mp h
  have htake : cs.take (cs.takeWhile isDecimalDigit).length = cs.takeWhile isDecimalDigit :=
    (List.prefix_iff_eq_take.mp (List.takeWhile_prefix _)).symm
  have hdrop : rest = cs.drop ((cs.takeWhile isDecimalDigit).length + 1) := by
    rw [← List.drop_drop, hrest]
    rfl
  calc cs = cs.take (cs.takeWhile isDecimalDigit).length ++ cs.drop (cs.takeWhile isDecimalDigit).length :=
        (List.take_append_drop _ _).symm
    _ = cs.takeWhile isDecimalDigit ++ '|' :: cs.drop ((cs.takeWhile isDecimalDigit).length + 1) := by
        rw [htake, hrest, ← hdrop]

theorem found_cons_ne {c : Char} (h : c ≠ '|') (cs : List Char) : found (c :: cs) = found cs := by
  rw [found, if_pos h]

theorem found_group {ds : List Char} (hne : ds ≠ []) (hds : ∀ d ∈ ds, isDecimalDigit d = true) (rest : List Char) :
    found ('|' :: (ds ++ '|' :: rest)) =
      ((boundedDecimal? maxSigned ds).map Marker.numbered).toList ++ found rest := by
  rw [found]
  simp [takeWhile_digits hds isDecimalDigit_bar, hne]

theorem found_append_of_no_bar {a : List Char} (h : '|' ∉ a) (cs : List Char) : found (a ++ cs) = found cs := by
  induction a with
  | nil => rfl
  | cons c a ih =>
    rw [List.mem_cons, not_or] at h
    rw [List.cons_append, found_cons_ne (Ne.symm h.1), ih h.2]

/-- A character that is neither a bar nor a digit ends every group, so the scan of a text is that of the two sides. -/
theorem found_append_cons {d : Char} (hbar : d ≠ '|') (hdigit : isDecimalDigit d = false) (a b : List Char) :
    found (a ++ d :: b) = found a ++ found b := by
  fun_induction found a with
  | case1 => exact found_cons_ne hbar b
  | case2 c rest hc ih => rw [List.cons_append, found_cons_ne hc, ih]
  | case3 c rest hc digits hgroup ih =>
    obtain rfl : c = '|' := by simpa using hc
    simp only [Bool.and_eq_true, decide_eq_true_eq, Bool.not_eq_true', List.isEmpty_eq_false_iff] at hgroup
    have hrest := eq_digits_bar hgroup.2
    have hds : ∀ d ∈ digits, isDecimalDigit d = true := fun d hd => List.all_eq_true.mp List.all_takeWhile d hd
    have hcs : '|' :: rest ++ d :: b = '|' :: (digits ++ '|' :: (rest.drop (digits.length + 1) ++ d :: b)) := by
      nth_rewrite 1 [hrest]
      simp [digits]
    rw [hcs, found_group hgroup.1 hds, ih, List.append_assoc]
  | case4 c rest hc digits hgroup ih =>
    obtain rfl : c = '|' := by simpa using hc
    -- The digits that follow the bar are the same with the character behind them, and no bar follows them then either.
    have hds : (rest ++ d :: b).takeWhile isDecimalDigit = digits := by
      rw [List.takeWhile_append]
      split
      · rename_i hlen
        have hall : rest.takeWhile isDecimalDigit = rest := (List.takeWhile_prefix _).eq_of_length hlen
        rw [List.takeWhile_cons_of_neg (by simp [hdigit]), List.append_nil]
        exact hall.symm
      · rfl
    have hlen : digits.length ≤ rest.length := (List.takeWhile_prefix _).length_le
    have hno : ¬ (!digits.isEmpty &&
        decide (((rest ++ d :: b).drop digits.length).head? = some '|')) = true := by
      rw [List.drop_append_of_le_length hlen, List.head?_append]
      intro h
      apply hgroup
      cases hh : (rest.drop digits.length).head? with
      | none => simp [hh, hbar] at h
      | some e => simpa [hh] using h
    rw [List.cons_append, found]
    simp only [ne_eq, not_true_eq_false, ↓reduceIte, hds]
    rw [if_neg hno, ih]
    rfl

theorem found_append_space (a b : List Char) : found (a ++ ' ' :: b) = found a ++ found b :=
  found_append_cons (by decide) isDecimalDigit_space a b

theorem found_intercalate (commands : List (List Char)) :
    found ([' '].intercalate commands) = commands.flatMap found := by
  induction commands with
  | nil => simp [found]
  | cons a rest ih =>
    cases rest with
    | nil => simp
    | cons b rest =>
      rw [List.intercalate_cons_cons, List.append_assoc, List.singleton_append, found_append_space, ih]
      rfl

/-! ## Texts with bars and without markers -/

/-- Every bar of the text belongs to a group of digits between two bars, and the digits of each group are no number in
range: some are not ASCII digits, or the number is too great. -/
inductive Unreadable : List Char → Prop where
  | plain {cs : List Char} (h : '|' ∉ cs) : Unreadable cs
  | group {before digits rest : List Char} (hb : '|' ∉ before) (hne : digits ≠ [])
      (hd : ∀ d ∈ digits, isDecimalDigit d = true) (hn : boundedDecimal? maxSigned digits = none)
      (h : Unreadable rest) : Unreadable (before ++ '|' :: (digits ++ '|' :: rest))

theorem Unreadable.cons {c : Char} {cs : List Char} (hc : c ≠ '|') (h : Unreadable cs) : Unreadable (c :: cs) := by
  cases h with
  | plain h => exact .plain (by simp [h, Ne.symm hc])
  | group hb hne hd hn h => exact @Unreadable.group (c :: _) _ _ (by simp [hb, Ne.symm hc]) hne hd hn h

theorem found_eq_nil_iff {cs : List Char} : found cs = [] ↔ Unreadable cs := by
  constructor
  · intro h
    fun_induction found cs with
    | case1 => exact .plain (by simp)
    | case2 c rest hc ih => exact (ih h).cons hc
    | case3 c rest hc digits hgroup ih =>
      obtain rfl : c = '|' := by simpa using hc
      simp only [Bool.and_eq_true, decide_eq_true_eq, Bool.not_eq_true', List.isEmpty_eq_false_iff] at hgroup
      simp only [List.append_eq_nil_iff, Option.toList_eq_nil_iff, Option.map_eq_none_iff] at h
      rw [eq_digits_bar hgroup.2]
      exact @Unreadable.group [] _ _ (by simp) hgroup.1
        (fun d hd => List.all_eq_true.mp List.all_takeWhile d hd) h.1 (ih h.2)
    | case4 => simp at h
  · intro h
    induction h with
    | plain h => simpa [found] using found_append_of_no_bar h []
    | group hb hne hd hn _ ih => rw [found_append_of_no_bar hb, found_group hne hd, hn, ih]; rfl

/-- A bar of such a text has a digit beside it, so it does not stand between spaces. -/
theorem Unreadable.isClear {cs : List Char} (h : Unreadable cs) : IsClear ['|'] cs := by
  intro hin
  have hfound : found (cs ++ [' ']) = [] := by
    rw [found_append_space, found_eq_nil_iff.mpr h]
    simp [found]
  obtain ⟨a, b, hab⟩ := hin
  have hcs : cs ++ [' '] = a ++ ' ' :: ('|' :: ' ' :: b) := by rw [← hab]; simp [spaced]
  rw [hcs, found_append_space, List.append_eq_nil_iff] at hfound
  have hbar : found ('|' :: ' ' :: b) = .bare :: found (' ' :: b) := by
    rw [found]
    simp [isDecimalDigit_space]
  rw [hbar] at hfound
  simp at hfound

/-! ## Free numbers -/

/-- The number between a bar and the next one, when only digits lie between them; `cs` follows the first bar. -/
def numberBefore? (cs : List Char) : Option Nat :=
  let digits := cs.takeWhile isDecimalDigit
  if (cs.drop digits.length).head? = some '|' then decimal? digits else none

/-- The numbers between neighbouring bars, overlapping ones included: each bar gives at most one. -/
def enclosed : List Char → List Nat
  | [] => []
  | c :: cs => (if c = '|' then (numberBefore? cs).toList else []) ++ enclosed cs

theorem numberBefore?_digits {ds : List Char} (hds : ∀ d ∈ ds, isDecimalDigit d = true) (rest : List Char) :
    numberBefore? (ds ++ '|' :: rest) = decimal? ds := by
  simp [numberBefore?, takeWhile_digits hds isDecimalDigit_bar]

theorem bar_mem_of_numberBefore? {cs : List Char} {n : Nat} (h : numberBefore? cs = some n) : '|' ∈ cs := by
  simp only [numberBefore?] at h
  split at h
  · rename_i hbar
    rw [eq_digits_bar hbar]
    simp
  · cases h

theorem enclosed_append_subset (a cs : List Char) : enclosed cs ⊆ enclosed (a ++ cs) := by
  induction a with
  | nil => exact List.Subset.refl _
  | cons c a ih =>
    rw [List.cons_append, enclosed]
    exact List.subset_append_of_subset_right _ ih

/-- The last bar encloses nothing. -/
theorem length_enclosed_le (cs : List Char) : (enclosed cs).length ≤ cs.count '|' - 1 := by
  induction cs with
  | nil => simp [enclosed]
  | cons c cs ih =>
    rw [enclosed, List.length_append]
    by_cases hc : c = '|'
    · subst hc
      simp only [↓reduceIte, List.count_cons_self, Nat.add_sub_cancel]
      cases hn : numberBefore? cs with
      | none => simp; omega
      | some n =>
        have hpos : 0 < cs.count '|' := List.count_pos_iff.mpr (bar_mem_of_numberBefore? hn)
        simp; omega
    · simpa [hc, List.count_cons_of_ne (Ne.symm hc)] using ih

theorem mem_enclosed_of_found {cs : List Char} {n : Nat} (h : Marker.numbered n ∈ found cs) : n ∈ enclosed cs := by
  fun_induction found cs with
  | case1 => simp at h
  | case2 c rest hc ih => exact enclosed_append_subset [c] rest (ih h)
  | case3 c rest hc digits hgroup ih =>
    obtain rfl : c = '|' := by simpa using hc
    simp only [Bool.and_eq_true, decide_eq_true_eq] at hgroup
    rcases List.mem_append.mp h with h | h
    · -- The group's own number.
      simp only [Option.mem_toList, Option.map_eq_some_iff, boundedDecimal?, Option.filter_eq_some_iff] at h
      obtain ⟨m, ⟨hm, -⟩, he⟩ := h
      obtain rfl : m = n := by simpa using he
      have hn : numberBefore? rest = some m := by
        simp only [numberBefore?]
        rw [if_pos hgroup.2, hm]
      simp [enclosed, hn]
    · have hrest := eq_digits_bar hgroup.2
      have hsub := enclosed_append_subset ('|' :: digits ++ ['|']) (rest.drop (digits.length + 1)) (ih h)
      have hcs : '|' :: rest = '|' :: digits ++ ['|'] ++ rest.drop (digits.length + 1) := by
        nth_rewrite 1 [hrest]
        simp [digits]
      rw [hcs]
      exact hsub
  | case4 c rest hc digits hgroup ih =>
    rcases List.mem_cons.mp h with h | h
    · cases h
    · exact enclosed_append_subset [c] rest (ih h)

theorem decimal?_toDigits (n : Nat) : decimal? (Nat.toDigits 10 n) = some n := by
  have hall : (Nat.toDigits 10 n).all Char.isDigit = true := by
    rw [List.all_eq_true]
    exact fun d hd => Nat.isDigit_of_mem_toDigits (by decide) (by decide) hd
  have hval : withDigits 0 (Nat.toDigits 10 n) = n := Nat.ofDigitChars_ten_toDigits
  simp [decimal?, hall, hval, Nat.toDigits_ne_nil]

theorem mem_enclosed_of_infix {cs : List Char} {n : Nat} (h : (Marker.numbered n).text.toList <:+: cs) :
    n ∈ enclosed cs := by
  obtain ⟨a, b, rfl⟩ := h
  rw [List.append_assoc]
  apply enclosed_append_subset
  have hds : ∀ d ∈ Nat.toDigits 10 n, isDecimalDigit d = true := fun d hd =>
    isDecimalDigit_of_isDigit (Nat.isDigit_of_mem_toDigits (by decide) (by decide) hd)
  have hn : numberBefore? (Nat.toDigits 10 n ++ '|' :: b) = some n := by
    rw [numberBefore?_digits hds, decimal?_toDigits]
  rw [toList_text_numbered, List.cons_append, List.append_assoc, List.singleton_append, enclosed]
  simp [hn]

theorem isFree_iff {text : List Char} {n : Nat} :
    isFree text n = true ↔ Marker.numbered n ∉ found text ∧ ¬ (Marker.numbered n).text.toList <:+: text := by
  rw [← occursIn_iff]
  simp [isFree]

theorem mem_enclosed_of_not_isFree {text : List Char} {n : Nat} (h : ¬ isFree text n = true) :
    n ∈ enclosed text := by
  rw [isFree_iff] at h
  by_cases hf : Marker.numbered n ∈ found text
  · exact mem_enclosed_of_found hf
  · apply mem_enclosed_of_infix
    by_contra hi
    exact h ⟨hf, hi⟩

/-- Below the count of bars there is a free number. -/
theorem exists_isFree {text : List Char} (h : '|' ∈ text) : ∃ n < text.count '|', isFree text n = true := by
  by_contra hno
  have hsub : List.range (text.count '|') ⊆ enclosed text := by
    intro n hn
    apply mem_enclosed_of_not_isFree
    intro hfree
    exact hno ⟨n, List.mem_range.mp hn, hfree⟩
  have hlen := (List.nodup_range.subperm hsub).length_le
  rw [List.length_range] at hlen
  have hle := length_enclosed_le text
  have hpos : 0 < text.count '|' := List.count_pos_iff.mpr h
  omega

/-- The number that is taken is free, it is below the count of bars, and no smaller one is free. -/
theorem leastFree_spec {text : List Char} (h : '|' ∈ text) :
    isFree text (leastFree text) = true ∧ leastFree text < text.count '|' ∧
      ∀ m < leastFree text, ¬ isFree text m = true := by
  obtain ⟨n, hn, hfree⟩ := exists_isFree h
  cases hfind : (List.range (text.count '|')).find? (isFree text) with
  | none => exact absurd hfree (List.find?_eq_none.mp hfind n (List.mem_range.mpr hn))
  | some m =>
    have hm : leastFree text = m := by simp [leastFree, hfind]
    obtain ⟨hfm, hmem, hmin⟩ := List.find?_range_eq_some.mp hfind
    rw [hm]
    refine ⟨hfm, List.mem_range.mp hmem, fun k hk => ?_⟩
    simpa using hmin k hk

theorem bar_mem_of_found_ne_nil {text : List Char} (h : found text ≠ []) : '|' ∈ text := by
  by_contra hno
  exact h (found_eq_nil_iff.mpr (.plain hno))

end AliasLang.Command.Marker
