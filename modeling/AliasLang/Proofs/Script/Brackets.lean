/-
Brackets. Tokens nest their brackets properly when each closing bracket closes the innermost open one and none is left
open. A stretch of them is closed when it closes each bracket that it opens and no other: a bracket with all up to its
partner is such a stretch, and leaving one out does not change the nesting of the rest.
-/
import AliasLang.Script.Minify

namespace AliasLang.Script

/-! ## Open brackets -/

/-- The character of a bracket. -/
def Token.bracket (t : Token) : Char := t.text.toList.headD ' '

/-- The brackets that are open after `t`, the innermost first, given those before it. -/
def openBy (opened : List Char) (t : Token) : Option (List Char) :=
  if t.isOpening then some (t.bracket :: opened)
  else if t.isClosing then
    match opened with
    | [] => none
    | o :: rest => if closerOf o = t.bracket then some rest else none
  else some opened

/-- The brackets that are open after some tokens. -/
def openAfter (opened : List Char) : List Token → Option (List Char)
  | [] => some opened
  | t :: ts => (openBy opened t).bind (openAfter · ts)

/-- Tokens whose brackets are properly nested. -/
def Nested (ts : List Token) : Prop := openAfter [] ts = some []

theorem openAfter_append (opened : List Char) (a b : List Token) :
    openAfter opened (a ++ b) = (openAfter opened a).bind (openAfter · b) := by
  induction a generalizing opened with
  | nil => rfl
  | cons t a ih =>
    rw [List.cons_append, openAfter, openAfter, Option.bind_assoc]
    congr 1
    funext opened'
    exact ih opened'

theorem openBy_opening {t : Token} (h : t.isOpening = true) (opened : List Char) :
    openBy opened t = some (t.bracket :: opened) := by
  simp [openBy, h]

theorem openBy_closing {t : Token} (hopening : ¬t.isOpening = true) (hclosing : t.isClosing = true) (o : Char)
    (opened : List Char) : openBy (o :: opened) t = if closerOf o = t.bracket then some opened else none := by
  simp [openBy, hopening, hclosing]

/-- A token that is no bracket. -/
def Token.isPlain (t : Token) : Bool := !t.isOpening && !t.isClosing

theorem openBy_plain {t : Token} (h : t.isPlain = true) (opened : List Char) : openBy opened t = some opened := by
  simp only [Token.isPlain, Bool.and_eq_true, Bool.not_eq_true'] at h
  simp [openBy, h.1, h.2]

theorem isPlain_of_kind {t : Token} (h : t.kind ≠ .punctuator) : t.isPlain = true := by
  simp [Token.isPlain, Token.isOpening, Token.isClosing, Token.isPunct, h]

theorem isPlain_of_isPunct {t : Token} {text : String} (h : t.isPunct text = true)
    (htext : text ∉ ["(", "[", "\x7b", ")", "]", "\x7d"]) : t.isPlain = true := by
  simp only [Token.isPunct, Bool.and_eq_true, decide_eq_true_eq] at h
  simp only [List.mem_cons, List.not_mem_nil, or_false, not_or] at htext
  simp [Token.isPlain, Token.isOpening, Token.isClosing, Token.isPunct, h.2, htext]

theorem bracket_of_isPunct {t : Token} {text : String} (h : t.isPunct text = true) :
    t.bracket = text.toList.headD ' ' := by
  simp only [Token.isPunct, Bool.and_eq_true, decide_eq_true_eq] at h
  rw [Token.bracket, h.2]

/-- A closing bracket is told by its character. -/
theorem isPunct_of_isClosing {t : Token} {text : String} (h : t.isClosing = true)
    (htext : text ∈ [")", "]", "\x7d"]) (hbracket : t.bracket = text.toList.headD ' ') : t.isPunct text = true := by
  simp only [Token.isClosing, Bool.or_eq_true] at h
  obtain ⟨text', htext', hpunct⟩ : ∃ text' ∈ [")", "]", "\x7d"], t.isPunct text' = true := by
    rcases h with (h | h) | h <;> exact ⟨_, by simp, h⟩
  rw [bracket_of_isPunct hpunct] at hbracket
  have hheads : ∀ a ∈ [")", "]", "\x7d"], ∀ b ∈ [")", "]", "\x7d"],
      a.toList.headD ' ' = b.toList.headD ' ' → a = b := by decide
  rwa [← hheads text' htext' text htext hbracket]

/-! ## Stretches that close what they open -/

/-- Whatever is open before it, just that is open after it. -/
def Closed (ts : List Token) : Prop := ∀ opened after, openAfter opened ts = some after → after = opened

theorem Closed.nil : Closed [] := by
  intro opened after h
  cases h
  rfl

theorem Closed.append {a b : List Token} (ha : Closed a) (hb : Closed b) : Closed (a ++ b) := by
  intro opened after h
  rw [openAfter_append, Option.bind_eq_some_iff] at h
  obtain ⟨middle, hmiddle, hafter⟩ := h
  rw [hb _ _ hafter, ha _ _ hmiddle]

theorem Closed.plain {t : Token} (h : t.isPlain = true) : Closed [t] := by
  intro opened after hafter
  rw [openAfter, openBy_plain h] at hafter
  cases hafter
  rfl

theorem Closed.cons {t : Token} {ts : List Token} (ht : t.isPlain = true) (h : Closed ts) : Closed (t :: ts) :=
  (Closed.plain ht).append h

/-- A closed stretch can be left out. -/
theorem Closed.leave {stretch rest : List Token} (h : Closed stretch) {opened after : List Char}
    (hopen : openAfter opened (stretch ++ rest) = some after) : openAfter opened rest = some after := by
  rw [openAfter_append, Option.bind_eq_some_iff] at hopen
  obtain ⟨middle, hmiddle, hafter⟩ := hopen
  rwa [h _ _ hmiddle] at hafter

/-- Up to the bracket that closes the outermost of some open brackets, all of these are closed. -/
theorem closingLength?_closes {depth : Nat} {ts : List Token} {n : Nat} (h : closingLength? depth ts = some n) :
    ∀ inner outer after, inner.length = depth → 0 < depth →
      openAfter (inner ++ outer) (ts.take n) = some after → after = outer := by
  fun_induction closingLength? depth ts generalizing n with
  | case1 => cases h
  | case2 depth t ts hopening ih =>
    obtain ⟨m, hm, rfl⟩ := Option.map_eq_some_iff.mp h
    intro inner outer after hlength hpos hafter
    rw [List.take_succ_cons, openAfter, openBy_opening hopening] at hafter
    exact ih hm (t.bracket :: inner) outer after (by simp [hlength]) (Nat.succ_pos _) hafter
  | case3 depth t ts hopening hclosing hdepth =>
    cases h
    intro inner outer after hlength hpos hafter
    obtain ⟨o, rfl⟩ : ∃ o, inner = [o] := List.length_eq_one_iff.mp (by omega)
    rw [List.take_succ_cons, List.take_zero, openAfter, List.singleton_append, openBy_closing hopening hclosing]
      at hafter
    by_cases hcloses : closerOf o = t.bracket
    · simpa [hcloses, openAfter] using hafter.symm
    · simp [hcloses] at hafter
  | case4 depth t ts hopening hclosing hdepth ih =>
    obtain ⟨m, hm, rfl⟩ := Option.map_eq_some_iff.mp h
    intro inner outer after hlength hpos hafter
    cases inner with
    | nil => simp at hlength; omega
    | cons o inner =>
      rw [List.take_succ_cons, openAfter, List.cons_append, openBy_closing hopening hclosing] at hafter
      by_cases hcloses : closerOf o = t.bracket
      · rw [if_pos hcloses, Option.bind_some] at hafter
        exact ih hm inner outer after (by simp at hlength; omega) (by omega) hafter
      · simp [hcloses] at hafter
  | case5 depth t ts hopening hclosing ih =>
    obtain ⟨m, hm, rfl⟩ := Option.map_eq_some_iff.mp h
    intro inner outer after hlength hpos hafter
    rw [List.take_succ_cons, openAfter, openBy_plain (by simp [Token.isPlain, hopening, hclosing])] at hafter
    exact ih hm inner outer after hlength hpos hafter

/-- A bracket with all up to the one that closes it. -/
theorem Closed.bracketed {t : Token} {ts : List Token} {n : Nat} (ht : t.isOpening = true)
    (h : closingLength? 1 ts = some n) : Closed (t :: ts.take n) := by
  intro opened after hafter
  rw [openAfter, openBy_opening ht] at hafter
  exact closingLength?_closes h [t.bracket] opened after rfl Nat.one_pos hafter

/-! ## Nested stretches -/

/-- Brackets around a stretch do not matter to it. -/
theorem openBy_outer {opened after : List Char} {t : Token} (h : openBy opened t = some after) (outer : List Char) :
    openBy (opened ++ outer) t = some (after ++ outer) := by
  unfold openBy at h ⊢
  split
  · rename_i hopening
    rw [if_pos hopening] at h
    cases h
    rfl
  · rename_i hopening
    rw [if_neg hopening] at h
    split
    · rename_i hclosing
      rw [if_pos hclosing] at h
      cases opened with
      | nil => cases h
      | cons o opened =>
        dsimp only [List.cons_append] at h ⊢
        split at h
        · rename_i hcloses
          cases h
          rw [if_pos hcloses]
        · cases h
    · rename_i hclosing
      rw [if_neg hclosing] at h
      cases h
      rfl

theorem openAfter_outer {opened after : List Char} {ts : List Token} (h : openAfter opened ts = some after)
    (outer : List Char) : openAfter (opened ++ outer) ts = some (after ++ outer) := by
  induction ts generalizing opened with
  | nil =>
    cases h
    rfl
  | cons t ts ih =>
    rw [openAfter, Option.bind_eq_some_iff] at h ⊢
    obtain ⟨middle, hmiddle, hafter⟩ := h
    exact ⟨middle ++ outer, openBy_outer hmiddle outer, ih hafter⟩

theorem Nested.openAfter {ts : List Token} (h : Nested ts) (opened : List Char) :
    openAfter opened ts = some opened := openAfter_outer h opened

theorem Nested.nil : Nested [] := rfl

theorem Nested.append {a b : List Token} (ha : Nested a) (hb : Nested b) : Nested (a ++ b) := by
  rw [Nested, openAfter_append, ha, Option.bind_some, hb]

theorem Nested.plain {t : Token} (h : t.isPlain = true) : Nested [t] := by
  rw [Nested, Script.openAfter, openBy_plain h]
  rfl

theorem Nested.cons {t : Token} {ts : List Token} (ht : t.isPlain = true) (h : Nested ts) : Nested (t :: ts) :=
  (Nested.plain ht).append h

theorem openAfter_nested {gap : List Token} (hgap : Nested gap) (opened : List Char) (a : List Token) :
    openAfter opened (gap ++ a) = openAfter opened a := by
  rw [openAfter_append, hgap.openAfter, Option.bind_some]

/-- Brackets around a nested stretch. -/
theorem Nested.enclose {o c : Token} {inner : List Token} (ho : o.isOpening = true) (hinner : Nested inner)
    (hno : ¬c.isOpening = true) (hc : c.isClosing = true) (hcloses : closerOf o.bracket = c.bracket) :
    Nested (o :: (inner ++ [c])) := by
  rw [Nested, Script.openAfter, openBy_opening ho, Option.bind_some, openAfter_append, hinner.openAfter,
    Option.bind_some, Script.openAfter, openBy_closing hno hc, if_pos hcloses]
  rfl

/-- Up to the bracket that closes one that is open, everything inside is nested. -/
theorem closingLength?_inner {depth : Nat} {ts : List Token} {n : Nat} (h : closingLength? depth ts = some n)
    (inside : List Char) {o : Char} {outer after : List Char} (hdepth : inside.length + 1 = depth)
    (hopen : openAfter (inside ++ o :: outer) ts = some after) :
    ∃ inner c, ts.take n = inner ++ [c] ∧ openAfter inside inner = some [] ∧ c.isOpening = false ∧
      c.isClosing = true ∧ closerOf o = c.bracket := by
  fun_induction closingLength? depth ts generalizing n inside with
  | case1 => cases h
  | case2 depth t ts hopening ih =>
    obtain ⟨m, hm, rfl⟩ := Option.map_eq_some_iff.mp h
    rw [openAfter, openBy_opening hopening, Option.bind_some] at hopen
    obtain ⟨inner, c, htake, hinner, hc⟩ := ih hm (t.bracket :: inside) (by rw [List.length_cons, hdepth]) hopen
    refine ⟨t :: inner, c, by rw [List.take_succ_cons, htake]; rfl, ?_, hc⟩
    rw [openAfter, openBy_opening hopening, Option.bind_some, hinner]
  | case3 depth t ts hopening hclosing hdepth' =>
    cases h
    obtain rfl : inside = [] := List.length_eq_zero_iff.mp (by omega)
    rw [List.nil_append, openAfter, openBy_closing hopening hclosing] at hopen
    split at hopen
    · rename_i hcloses
      exact ⟨[], t, rfl, rfl, by simpa using hopening, hclosing, hcloses⟩
    · cases hopen
  | case4 depth t ts hopening hclosing hdepth' ih =>
    obtain ⟨m, hm, rfl⟩ := Option.map_eq_some_iff.mp h
    cases inside with
    | nil =>
      rw [List.length_nil] at hdepth
      omega
    | cons b inside =>
      rw [List.cons_append, openAfter, openBy_closing hopening hclosing] at hopen
      split at hopen
      · rename_i hcloses
        rw [List.length_cons] at hdepth
        obtain ⟨inner, c, htake, hinner, hc⟩ := ih hm inside (by omega) hopen
        refine ⟨t :: inner, c, by rw [List.take_succ_cons, htake]; rfl, ?_, hc⟩
        rw [openAfter, openBy_closing hopening hclosing, if_pos hcloses, Option.bind_some, hinner]
      · cases hopen
  | case5 depth t ts hopening hclosing ih =>
    obtain ⟨m, hm, rfl⟩ := Option.map_eq_some_iff.mp h
    have hplain : t.isPlain = true := by simp [Token.isPlain, hopening, hclosing]
    rw [openAfter, openBy_plain hplain, Option.bind_some] at hopen
    obtain ⟨inner, c, htake, hinner, hc⟩ := ih hm inside hdepth hopen
    refine ⟨t :: inner, c, by rw [List.take_succ_cons, htake]; rfl, ?_, hc⟩
    rw [openAfter, openBy_plain hplain, Option.bind_some, hinner]

/-- Only one bracket in front of a closing one is its partner. -/
theorem enclosed_unique {before before' inner inner' : List Token} {o o' : Token}
    (h : before ++ o :: inner = before' ++ o' :: inner') (ho : o.isOpening = true) (ho' : o'.isOpening = true)
    (hinner : Nested inner) (hinner' : Nested inner') : before = before' ∧ o = o' ∧ inner = inner' := by
  -- a nested stretch holds no bracket behind which all is closed
  have hnone : ∀ {front : List Token} {o : Token} {inner : List Token}, o.isOpening = true → Nested inner →
      ¬Nested (front ++ o :: inner) := by
    intro front o inner ho hinner hall
    rw [Nested, openAfter_append, Option.bind_eq_some_iff] at hall
    obtain ⟨opened, -, hopened⟩ := hall
    rw [Script.openAfter, openBy_opening ho, Option.bind_some, hinner.openAfter] at hopened
    cases hopened
  rcases List.append_eq_append_iff.mp h with ⟨between, rfl, hbetween⟩ | ⟨between, rfl, hbetween⟩
  · cases between with
    | nil =>
      obtain ⟨rfl, rfl⟩ := List.cons.inj hbetween
      exact ⟨(List.append_nil _).symm, rfl, rfl⟩
    | cons t between =>
      rw [List.cons_append] at hbetween
      obtain ⟨rfl, rfl⟩ := List.cons.inj hbetween
      exact absurd hinner (hnone ho' hinner')
  · cases between with
    | nil =>
      obtain ⟨rfl, rfl⟩ := List.cons.inj hbetween
      exact ⟨List.append_nil _, rfl, rfl⟩
    | cons t between =>
      rw [List.cons_append] at hbetween
      obtain ⟨rfl, rfl⟩ := List.cons.inj hbetween
      exact absurd hinner' (hnone ho hinner)

end AliasLang.Script
