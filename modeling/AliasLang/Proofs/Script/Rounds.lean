/-
Rounds. One round takes out of a script, all at once, the function declarations outside brackets whose name is a word
nowhere else; it is told here by the places of tokens, without the pieces that a script is cut into. A round can bring
new declarations about: in `function f`, then `function g()` with its body, then `()` and a body, the first function is
one only when the second is gone. Still every script gets to a round that finds nothing, and there each declaration is
used.
-/
import AliasLang.Proofs.Script.TopLevel
import Mathlib.Logic.Relation

namespace AliasLang.Script

/-! ## Places of unused functions -/

/-- The place `i` belongs to a declaration whose name is no word outside of it. -/
def Unused (ts : List Token) (i : Nat) : Prop :=
  ∃ before name d after, TopLevel ts before name d after ∧ (∀ t ∈ before ++ after, t.isWord name = false) ∧
    before.length ≤ i ∧ i < before.length + d.length

/-- Of tokens whose places start at `i`, all are left in order but those at places that are gone. -/
inductive Spares (gone : Nat → Prop) : Nat → List Token → List Token → Prop
  | nil {i : Nat} : Spares gone i [] []
  | keep {i : Nat} {t : Token} {ts kept : List Token} (h : ¬gone i) (hrest : Spares gone (i + 1) ts kept) :
      Spares gone i (t :: ts) (t :: kept)
  | drop {i : Nat} {t : Token} {ts kept : List Token} (h : gone i) (hrest : Spares gone (i + 1) ts kept) :
      Spares gone i (t :: ts) kept

/-- From `ts` go all unused functions, of which there is one, and `kept` is what is left. -/
structure Round (ts kept : List Token) : Prop where
  unused : ∃ i < ts.length, Unused ts i
  spares : Spares (Unused ts) 0 ts kept

/-! ## What is left -/

section
variable {gone : Nat → Prop} {i : Nat} {ts kept : List Token}

theorem Spares.keepAll (a : List Token) (h : ∀ j < a.length, ¬gone (i + j))
    (hrest : Spares gone (i + a.length) ts kept) : Spares gone i (a ++ ts) (a ++ kept) := by
  induction a generalizing i with
  | nil => exact hrest
  | cons t a ih =>
    refine .keep (h 0 (Nat.succ_pos _)) (ih (fun j hj => ?_) ?_)
    · rw [Nat.add_right_comm]
      exact h (j + 1) (Nat.succ_lt_succ hj)
    · rwa [Nat.add_right_comm]

theorem Spares.dropAll (a : List Token) (h : ∀ j < a.length, gone (i + j))
    (hrest : Spares gone (i + a.length) ts kept) : Spares gone i (a ++ ts) kept := by
  induction a generalizing i with
  | nil => exact hrest
  | cons t a ih =>
    refine .drop (h 0 (Nat.succ_pos _)) (ih (fun j hj => ?_) ?_)
    · rw [Nat.add_right_comm]
      exact h (j + 1) (Nat.succ_lt_succ hj)
    · rwa [Nat.add_right_comm]

theorem Spares.length_le (h : Spares gone i ts kept) : kept.length ≤ ts.length := by
  induction h with
  | nil => exact Nat.le_refl _
  | keep _ _ ih => exact Nat.succ_le_succ ih
  | drop _ _ ih => exact Nat.le_succ_of_le ih

/-- Fewer are left exactly when a place is gone. -/
theorem Spares.length_lt_iff (h : Spares gone i ts kept) :
    kept.length < ts.length ↔ ∃ j < ts.length, gone (i + j) := by
  induction h with
  | nil => simp
  | @keep i t ts kept hstays _ ih =>
    rw [List.length_cons, List.length_cons, Nat.succ_lt_succ_iff, ih]
    constructor
    · rintro ⟨j, hj, hgone⟩
      exact ⟨j + 1, Nat.succ_lt_succ hj, by rwa [Nat.add_right_comm] at hgone⟩
    · rintro ⟨_ | j, hj, hgone⟩
      · exact absurd hgone hstays
      · exact ⟨j, Nat.lt_of_succ_lt_succ hj, by rwa [Nat.add_right_comm]⟩
  | @drop i t ts kept hgone hrest _ =>
    refine iff_of_true ?_ ⟨0, Nat.succ_pos _, hgone⟩
    exact Nat.lt_succ_of_le hrest.length_le

end

/-! ## One round -/

theorem mentions_eq_false_iff {name : String} {ps : List Piece} :
    Piece.mentions name ps = false ↔ ∀ t ∈ ps.flatMap Piece.tokens, t.isWord name = false := by
  simp only [Piece.mentions, List.any_eq_false, List.mem_flatMap, Bool.not_eq_true, forall_exists_index, and_imp]
  exact ⟨fun h t p hp ht => h p hp t ht, fun h p hp t ht => h t p hp ht⟩

/-- A place belongs to one piece only. -/
theorem piece_unique {ps ps' qs qs' : List Piece} {p p' : Piece} {i : Nat}
    (h : ps ++ p :: qs = ps' ++ p' :: qs') (hle : (ps.flatMap Piece.tokens).length ≤ i)
    (hlt : i < (ps.flatMap Piece.tokens).length + p.tokens.length)
    (hle' : (ps'.flatMap Piece.tokens).length ≤ i)
    (hlt' : i < (ps'.flatMap Piece.tokens).length + p'.tokens.length) : ps = ps' ∧ p = p' ∧ qs = qs' := by
  rcases List.append_eq_append_iff.mp h with ⟨between, rfl, hbetween⟩ | ⟨between, rfl, hbetween⟩
  · cases between with
    | nil =>
      obtain ⟨rfl, rfl⟩ := List.cons.inj hbetween
      exact ⟨(List.append_nil _).symm, rfl, rfl⟩
    | cons u between =>
      obtain ⟨rfl, -⟩ := List.cons.inj hbetween
      rw [List.flatMap_append, List.flatMap_cons, List.length_append, List.length_append] at hle'
      omega
  · cases between with
    | nil =>
      obtain ⟨rfl, rfl⟩ := List.cons.inj hbetween
      exact ⟨List.append_nil _, rfl, rfl⟩
    | cons u between =>
      obtain ⟨rfl, -⟩ := List.cons.inj hbetween
      rw [List.flatMap_append, List.flatMap_cons, List.length_append, List.length_append] at hle
      omega

/-- The places of a piece are unused when it is a declaration that no other piece mentions. -/
theorem unused_iff {ts : List Token} (hts : Nested ts) {ps qs : List Piece} {p : Piece} (h : pieces ts = ps ++ p :: qs)
    {j : Nat} (hj : j < p.tokens.length) :
    Unused ts ((ps.flatMap Piece.tokens).length + j) ↔
      ∃ name d, p = .declaration name d ∧ Piece.mentions name ps = false ∧ Piece.mentions name qs = false := by
  constructor
  · rintro ⟨before, name, d, after, htop, hnone, hle, hlt⟩
    obtain ⟨ps', qs', hpieces, rfl, rfl⟩ := (cutOff_iff_topLevel hts).mpr htop
    rw [h] at hpieces
    obtain ⟨rfl, rfl, rfl⟩ := piece_unique hpieces (Nat.le_add_right _ j) (by omega) hle hlt
    rw [List.forall_mem_append] at hnone
    exact ⟨name, d, rfl, mentions_eq_false_iff.mpr hnone.1, mentions_eq_false_iff.mpr hnone.2⟩
  · rintro ⟨name, d, rfl, hbefore, hafter⟩
    refine ⟨_, name, d, _, (cutOff_iff_topLevel hts).mp ⟨ps, qs, h, rfl, rfl⟩, ?_, Nat.le_add_right _ j, ?_⟩
    · exact List.forall_mem_append.mpr ⟨mentions_eq_false_iff.mp hbefore, mentions_eq_false_iff.mp hafter⟩
    · exact Nat.add_lt_add_left hj _

/-- From the pieces `qs` on, behind the pieces `ps`. -/
theorem spares_dropUnmentioned {ts : List Token} (hts : Nested ts) (ps qs : List Piece) (h : pieces ts = ps ++ qs) :
    Spares (Unused ts) (ps.flatMap Piece.tokens).length (qs.flatMap Piece.tokens)
      ((dropUnmentioned ps qs).flatMap Piece.tokens) := by
  fun_induction dropUnmentioned ps qs with
  | case1 ps => exact .nil
  | case2 ps qs t ih =>
    have hlater := ih (by rw [h, List.append_assoc]; rfl)
    rw [List.flatMap_append, List.length_append] at hlater
    rw [List.flatMap_cons, List.flatMap_cons]
    refine .keepAll _ (fun j hj hunused => ?_) hlater
    obtain ⟨name, d, hpiece, -⟩ := (unused_iff hts h hj).mp hunused
    cases hpiece
  | case3 ps qs name tokens hmentioned ih =>
    have hlater := ih (by rw [h, List.append_assoc]; rfl)
    rw [List.flatMap_append, List.length_append, List.flatMap_singleton] at hlater
    rw [List.flatMap_cons, List.flatMap_cons]
    refine .keepAll _ (fun j hj hunused => ?_) hlater
    obtain ⟨name', d, hpiece, hbefore, hafter⟩ := (unused_iff hts h hj).mp hunused
    obtain ⟨rfl, rfl⟩ := Piece.declaration.inj hpiece
    simp [hbefore, hafter] at hmentioned
  | case4 ps qs name tokens hunmentioned ih =>
    have hlater := ih (by rw [h, List.append_assoc]; rfl)
    rw [List.flatMap_append, List.length_append, List.flatMap_singleton] at hlater
    rw [Bool.not_eq_true, Bool.or_eq_false_iff] at hunmentioned
    rw [List.flatMap_cons]
    exact .dropAll _ (fun j hj => (unused_iff hts h hj).mpr ⟨name, tokens, rfl, hunmentioned⟩) hlater

/-- What a round keeps is what it does not find unused. -/
theorem spares_keptTokens {ts : List Token} (hts : Nested ts) : Spares (Unused ts) 0 ts (keptTokens ts) := by
  have h := spares_dropUnmentioned hts [] (pieces ts) rfl
  rwa [pieces, piecesFrom_tokens] at h

theorem nested_keptTokens {ts : List Token} (hts : Nested ts) : Nested (keptTokens ts) := by
  have h := dropUnmentioned_edited [] (pieces ts) fun _ _ => piecesFrom_declaration 0 none ts
  rw [pieces, piecesFrom_tokens] at h
  exact h.nested hts

/-! ## All rounds -/

theorem Round.length_lt {ts kept : List Token} (h : Round ts kept) : kept.length < ts.length := by
  obtain ⟨i, hi, hunused⟩ := h.unused
  exact h.spares.length_lt_iff.mpr ⟨i, hi, by rwa [Nat.zero_add]⟩

/-- However rounds follow one another, they come to an end. -/
theorem rounds_wellFounded : WellFounded fun kept ts : List Token => Round ts kept :=
  Subrelation.wf (fun h => Round.length_lt h) (measure List.length).wf

theorem dropUnused_rounds {ts : List Token} (hts : Nested ts) : Relation.ReflTransGen Round ts (dropUnused ts) := by
  fun_induction dropUnused ts with
  | case1 ts kept hshorter ih =>
    have hspares : Spares (Unused ts) 0 ts kept := spares_keptTokens hts
    obtain ⟨i, hi, hunused⟩ := hspares.length_lt_iff.mp hshorter
    rw [Nat.zero_add] at hunused
    exact .head ⟨⟨i, hi, hunused⟩, hspares⟩ (ih (nested_keptTokens hts))
  | case2 ts kept hsame => exact .refl

theorem keptTokens_dropUnused (ts : List Token) : keptTokens (dropUnused ts) = dropUnused ts := by
  fun_induction dropUnused ts with
  | case1 ts kept hshorter ih => exact ih
  | case2 ts kept hsame => exact (keptTokens_sublist ts).eq_of_length_le (Nat.le_of_not_lt hsame)

/-- Where a round would change nothing, no place is unused. -/
theorem not_unused_of_keptTokens {ts : List Token} (hts : Nested ts) (h : keptTokens ts = ts) {i : Nat}
    (hi : i < ts.length) : ¬Unused ts i := by
  intro hunused
  have hshorter := (spares_keptTokens hts).length_lt_iff.mpr ⟨i, hi, by rwa [Nat.zero_add]⟩
  rw [h] at hshorter
  exact Nat.lt_irrefl _ hshorter

/-- **Unused functions go, round by round, until each function left is used.** Take tokens whose brackets are nested.
Rounds cannot follow one another forever. The tokens that are left come about by rounds, of which each takes out exactly
the declarations outside brackets whose name is a word nowhere else, and keeps every other token in order. The brackets
of what is left are nested, and in it each declaration that the cut finds stands outside brackets and has its name as a
word of a token outside of it. So no further round is possible, and leaving out unused functions again changes
nothing. -/
theorem unused_functions_go_round_by_round {ts : List Token} (hts : Nested ts) :
    Acc (fun kept ts => Round ts kept) ts ∧
      Relation.ReflTransGen Round ts (dropUnused ts) ∧
      Nested (dropUnused ts) ∧
      (∀ before name d after, CutOff (dropUnused ts) before name d after →
        TopLevel (dropUnused ts) before name d after ∧ ∃ t ∈ before ++ after, t.isWord name = true) ∧
      (∀ kept, ¬Round (dropUnused ts) kept) ∧
      dropUnused (dropUnused ts) = dropUnused ts := by
  have hleft : Nested (dropUnused ts) := (dropUnused_edited ts).nested hts
  have hfixed := keptTokens_dropUnused ts
  refine ⟨rounds_wellFounded.apply ts, dropUnused_rounds hts, hleft, fun before name d after hcut => ?_, ?_,
    dropUnused_of_keptTokens hfixed⟩
  · have htop := (cutOff_iff_topLevel hleft).mp hcut
    refine ⟨htop, ?_⟩
    by_contra hnone
    have hnone : ∀ t ∈ before ++ after, t.isWord name = false := by simpa using hnone
    have hlength : 0 < d.length := by
      obtain ⟨keyword, word, params, body, tail, rfl, -⟩ := htop.shape
      exact Nat.succ_pos _
    have hi : before.length < (dropUnused ts).length := by
      rw [htop.split, List.length_append, List.length_append]
      omega
    exact not_unused_of_keptTokens hleft hfixed hi ⟨before, name, d, after, htop, hnone, Nat.le_refl _, by omega⟩
  · intro kept hround
    obtain ⟨i, hi, hunused⟩ := hround.unused
    exact not_unused_of_keptTokens hleft hfixed hi hunused

/-- A word of a script. -/
def wordToken (text : String) (newlineBefore : Bool) : Token := ⟨.word, text, .start, newlineBefore, false⟩

/-- A punctuator of a script. -/
def punctToken (text : String) (newlineBefore : Bool) : Token := ⟨.punctuator, text, .start, newlineBefore, false⟩

/-- `function f`, on the next line the function `g`, on the next one an empty parameter list and an empty body, then the
function `h`, which is called in the end. -/
def partedTokens : List Token :=
  [wordToken "function" false, wordToken "f" false,
    wordToken "function" true, wordToken "g" false, punctToken "(" false, punctToken ")" false, punctToken "\x7b" false,
      punctToken "\x7d" false,
    punctToken "(" true, punctToken ")" false, punctToken "\x7b" false, punctToken "\x7d" false,
    wordToken "function" true, wordToken "h" false, punctToken "(" false, punctToken ")" false, punctToken "\x7b" false,
      punctToken "\x7d" false,
    wordToken "h" true, punctToken "(" false, punctToken ")" false]

/-- With `g` gone, `f` is declared and goes as well; `h` stays, and a further attempt changes nothing. -/
theorem parted_function_goes_in_second_round :
    Nested partedTokens ∧ dropUnused partedTokens = partedTokens.drop 12 ∧
      Relation.ReflTransGen Round partedTokens (partedTokens.drop 12) ∧
      (∀ kept, ¬Round (partedTokens.drop 12) kept) ∧ dropUnused (partedTokens.drop 12) = partedTokens.drop 12 := by
  have hnested : Nested partedTokens := by
    unfold Nested
    decide
  have hleft : dropUnused partedTokens = partedTokens.drop 12 := by decide +kernel
  obtain ⟨-, hrounds, -, -, hend, hfixed⟩ := unused_functions_go_round_by_round hnested
  rw [hleft] at hrounds hend hfixed
  exact ⟨hnested, hleft, hrounds, hend, hfixed⟩

end AliasLang.Script
