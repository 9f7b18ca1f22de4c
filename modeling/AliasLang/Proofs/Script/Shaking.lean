/-
Which functions are left. Unused functions are left out round by round, and each round cuts the tokens into pieces anew.
What a round leaves is cut as it was before, but that a semicolon may go over to the declaration it now stands behind.
So rounds can be looked at as steps on the parts of a script, its pieces without semicolons: a step leaves out the
declarations that no other part mentions, and what is left in the end is the largest choice of parts of which each
declaration is mentioned by another one.
-/
import AliasLang.Proofs.Script.Alignment
import AliasLang.Proofs.Script.Parts

namespace AliasLang.Script

/-! ## The largest supported choice -/

/-- Each part of a choice is supported by the choice. -/
def Supports (xs : List Part) : Prop := ∀ x ∈ xs, x.supported xs = true

theorem supported_mono {xs ys : List Part} (h : xs.Sublist ys) {x : Part} (hx : x.supported xs = true) :
    x.supported ys = true := by
  unfold Part.supported at hx ⊢
  split
  · rfl
  · rename_i name hname
    rw [hname] at hx
    simp only [decide_eq_true_eq] at hx ⊢
    exact Nat.le_trans hx h.countP_le

/-- The parts `ys` are the largest choice from `xs` of which each declaration is mentioned by another part. -/
structure Shaken (xs ys : List Part) : Prop where
  sublist : ys.Sublist xs
  supports : Supports ys
  greatest : ∀ zs, zs.Sublist xs → Supports zs → zs.Sublist ys

theorem Shaken.unique {xs ys zs : List Part} (hy : Shaken xs ys) (hz : Shaken xs zs) : ys = zs :=
  (hz.greatest ys hy.sublist hy.supports).antisymm (hy.greatest zs hz.sublist hz.supports)

theorem Shaken.refl {xs : List Part} (h : Supports xs) : Shaken xs xs :=
  ⟨.refl xs, h, fun _ hzs _ => hzs⟩

/-- Leaving out parts that are not supported loses nothing of the largest choice. -/
theorem Shaken.round {xs ys : List Part} (h : Shaken (xs.filter fun x => x.supported xs) ys) : Shaken xs ys := by
  refine ⟨h.sublist.trans List.filter_sublist, h.supports, fun zs hzs hsupports => h.greatest zs ?_ hsupports⟩
  have hfilter := hzs.filter fun x => x.supported xs
  rwa [List.filter_eq_self.mpr fun x hx => supported_mono hzs (hsupports x hx)] at hfilter

/-- Declarations that nothing else mentions have no part in the largest choice. -/
theorem Shaken.of_append {hs xs ys : List Part} (h : Shaken (hs ++ xs) ys)
    (hhs : ∀ x ∈ hs, x.supported (hs ++ xs) = false) : Shaken xs ys := by
  have hnone : ∀ zs, zs.Sublist (hs ++ xs) → Supports zs → zs.Sublist xs := by
    intro zs hzs hsupports
    obtain ⟨front, back, rfl, hfront, hback⟩ := List.sublist_append_iff.mp hzs
    cases front with
    | nil => exact hback
    | cons x front =>
      have hx := supported_mono hzs (hsupports x List.mem_cons_self)
      rw [hhs x (hfront.subset List.mem_cons_self)] at hx
      cases hx
  refine ⟨hnone ys h.sublist h.supports, h.supports, fun zs hzs hsupports => ?_⟩
  exact h.greatest zs (hzs.trans (List.sublist_append_right hs xs)) hsupports

/-! ## Neighbours -/

/-- Tokens between which no line break ends a statement, but behind closing braces. -/
def SettledAll : Option Token → List Token → Prop
  | _, [] => True
  | last, t :: ts => Settled last t ∧ SettledAll (some t) ts

theorem Aligned.settledAll {gaps : Option Token → Prop} {front ts cur : List Token} {last : Option Token}
    (h : Aligned False gaps front last ts cur) : SettledAll last cur := by
  induction h with
  | done => trivial
  | keep hfits _ ih => exact ⟨hfits.settled.resolve_left id, ih⟩
  | insert hs _ ih => exact ⟨settled_semicolon hs _, ih⟩

theorem SettledAll.append {a b : List Token} {last : Option Token} (h : SettledAll last (a ++ b)) :
    SettledAll (a.getLast?.or last) b := by
  induction a generalizing last with
  | nil => exact h
  | cons t a ih =>
    rw [or_getLast?_cons]
    exact ih h.2

/-- A declaration that is cut off stands behind the end of a statement. -/
theorem declared?_cases {depth : Nat} {last : Option Token} {t : Token} {rest : List Token} {name : String} {n : Nat}
    (h : declared? depth last t rest = some (name, n)) (hsettled : Settled last t) :
    depth = 0 ∧ t.isWord "function" = true ∧ EndsBlockPart last ∧ declarationLength? rest = some (name, n) := by
  unfold declared? at h
  split at h
  · rename_i hfunction
    simp only [Bool.and_eq_true, decide_eq_true_eq] at hfunction
    obtain ⟨⟨hdepth, ht⟩, hplace⟩ := hfunction
    have hfollow : MayFollow False last := mayFollow_of_isBlockPosition hplace ht (by decide) (.inr hsettled)
    exact ⟨hdepth, ht, hfollow.resolve_right fun hparted => hparted.1, h⟩
  · cases h

/-! ## Cutting again -/

theorem closingLength?_le {depth : Nat} {ts : List Token} {n : Nat} (h : closingLength? depth ts = some n) :
    n ≤ ts.length := by
  induction ts generalizing depth n with
  | nil => cases h
  | cons t ts ih =>
    rw [closingLength?] at h
    rw [List.length_cons]
    split at h
    · obtain ⟨m, hm, rfl⟩ := Option.map_eq_some_iff.mp h
      exact Nat.succ_le_succ (ih hm)
    · split at h
      · split at h
        · cases h
          omega
        · obtain ⟨m, hm, rfl⟩ := Option.map_eq_some_iff.mp h
          exact Nat.succ_le_succ (ih hm)
      · obtain ⟨m, hm, rfl⟩ := Option.map_eq_some_iff.mp h
        exact Nat.succ_le_succ (ih hm)

/-- What comes behind the closing bracket does not matter. -/
theorem closingLength?_take {depth : Nat} {ts : List Token} {n : Nat} (h : closingLength? depth ts = some n)
    (after : List Token) : closingLength? depth (ts.take n ++ after) = some n := by
  induction ts generalizing depth n with
  | nil => cases h
  | cons t ts ih =>
    rw [closingLength?] at h
    split at h
    · rename_i hopening
      obtain ⟨m, hm, rfl⟩ := Option.map_eq_some_iff.mp h
      rw [List.take_succ_cons, List.cons_append, closingLength?, if_pos hopening, ih hm]
      rfl
    · rename_i hopening
      split at h
      · rename_i hclosing
        split at h
        · rename_i hdepth
          cases h
          rw [List.take_succ_cons, List.cons_append, closingLength?, if_neg hopening, if_pos hclosing, if_pos hdepth]
        · rename_i hdepth
          obtain ⟨m, hm, rfl⟩ := Option.map_eq_some_iff.mp h
          rw [List.take_succ_cons, List.cons_append, closingLength?, if_neg hopening, if_pos hclosing, if_neg hdepth,
            ih hm]
          rfl
      · rename_i hclosing
        obtain ⟨m, hm, rfl⟩ := Option.map_eq_some_iff.mp h
        rw [List.take_succ_cons, List.cons_append, closingLength?, if_neg hopening, if_neg hclosing, ih hm]
        rfl

/-- A declaration is recognised before any text, and takes a semicolon that follows. -/
theorem declarationLength?_take {ts : List Token} {name : String} {n : Nat}
    (h : declarationLength? ts = some (name, n)) :
    ∃ core tail, ts.take n = core ++ tail ∧ (tail = [] ∨ ∃ s, tail = [s] ∧ s.isPunct ";" = true) ∧
      ∀ after : List Token, declarationLength? (core ++ after) =
        some (name, core.length + if after.head?.any (·.isPunct ";") then 1 else 0) := by
  obtain ⟨word, paren, rest, brace, body, k, m, rfl, hword, hparen, hk, hbody, hbrace, hm, rfl⟩ :=
    declarationLength?_cases h
  have hk' : (rest.take k).length = k := List.length_take_of_le (closingLength?_le hk)
  have hm' : (body.take m).length = m := List.length_take_of_le (closingLength?_le hm)
  refine ⟨word :: paren :: (rest.take k ++ brace :: body.take m),
    (body.drop m).take (if (body.drop m).head?.any (·.isPunct ";") then 1 else 0), ?_, ?_, fun after => ?_⟩
  · rw [take_declaration word paren hbody]
    simp
  · split
    · rename_i hhead
      cases hdrop : body.drop m with
      | nil => exact .inl rfl
      | cons s later =>
        rw [hdrop] at hhead
        exact .inr ⟨s, rfl, hhead⟩
    · exact .inl rfl
  · simp only [Token.isWord, Bool.and_eq_true, decide_eq_true_eq] at hword
    have hparams := closingLength?_take hk (brace :: (body.take m ++ after))
    have hblock := closingLength?_take hm after
    have hdrop : (rest.take k ++ brace :: (body.take m ++ after)).drop k = brace :: (body.take m ++ after) :=
      List.drop_left' hk'
    have hdrop' : (body.take m ++ after).drop m = after := List.drop_left' hm'
    simp only [List.cons_append, List.append_assoc, declarationLength?, hword.1, hparen, decide_true, Bool.and_self,
      if_true, hparams, hdrop, hbrace, hblock, hdrop', hword.2, Option.some.injEq, Prod.mk.injEq, true_and]
    simp only [List.length_cons, List.length_append, hk', hm']
    omega

theorem depthAfter_opening {t : Token} (h : t.isOpening = true) (depth : Nat) : depthAfter depth t = depth + 1 :=
  if_pos h

theorem depthAfter_plain {t : Token} (h : t.isPlain = true) (depth : Nat) : depthAfter depth t = depth := by
  simp only [Token.isPlain, Bool.and_eq_true, Bool.not_eq_true'] at h
  simp [depthAfter, h]

theorem declared?_semicolon {s : Token} (hs : s.isPunct ";" = true) (depth : Nat) (last : Option Token)
    (rest : List Token) : declared? depth last s rest = none := by
  rw [declared?, isWord_semicolon "function" s hs, Bool.and_false, Bool.false_and]
  rfl

/-- A semicolon outside all brackets is no part, and what comes behind it is cut as at the front. -/
theorem parts_piecesFrom_semicolon {s : Token} (hs : s.isPunct ";" = true) (last : Option Token) (ts : List Token) :
    parts (piecesFrom 0 last (s :: ts)) = parts (piecesFrom 0 (some s) ts) := by
  rw [piecesFrom_of_none (declared?_semicolon hs 0 last ts), parts_semicolon hs,
    depthAfter_plain (isPlain_semicolon hs)]

/-- A declaration is cut off with the semicolon that follows it. -/
theorem piecesFrom_core {last : Option Token} {t : Token} {core after : List Token} {name : String}
    (ht : t.isWord "function" = true) (hlast : EndsBlockPart last)
    (h : declarationLength? (core ++ after) =
      some (name, core.length + if after.head?.any (·.isPunct ";") then 1 else 0)) :
    ∃ tail rest, after = tail ++ rest ∧
      (tail = [] ∧ rest.head?.any (·.isPunct ";") = false ∨ ∃ s, tail = [s] ∧ s.isPunct ";" = true) ∧
      piecesFrom 0 last (t :: (core ++ after)) =
        .declaration name (t :: (core ++ tail)) :: piecesFrom 0 (t :: (core ++ tail)).getLast? rest := by
  have hdeclared : declared? 0 last t (core ++ after) =
      some (name, core.length + if after.head?.any (·.isPunct ";") then 1 else 0) := by
    rw [declared?, ht, isBlockPosition_of_endsBlockPart hlast, h]
    rfl
  have hcut := piecesFrom_of_some hdeclared
  rw [List.take_length_add_append, List.drop_length_add_append] at hcut
  refine ⟨_, _, (List.take_append_drop _ after).symm, ?_, hcut⟩
  cases after with
  | nil => exact .inl ⟨rfl, rfl⟩
  | cons s after =>
    by_cases hs : s.isPunct ";" = true
    · exact .inr ⟨s, by simp [hs], hs⟩
    · exact .inl ⟨by simp [hs], by simp [hs]⟩

/-- A declaration that was cut off is cut off again before any text. -/
theorem parts_piecesFrom_declaration {last : Option Token} {t : Token} {rest : List Token} {name : String} {n : Nat}
    (ht : t.isWord "function" = true) (hlast : EndsBlockPart last) (h : declarationLength? rest = some (name, n))
    (after : List Token) :
    parts (piecesFrom 0 last (t :: rest.take n ++ after)) =
      (Piece.declaration name (t :: rest.take n)).part ::
        parts (piecesFrom 0 (t :: rest.take n).getLast? after) := by
  obtain ⟨core, tail, htake, htail, hlength⟩ := declarationLength?_take h
  obtain ⟨tail', rest', hsplit, htail', hcut⟩ := piecesFrom_core ht hlast (hlength (tail ++ after))
  have hpart : (Piece.declaration name (t :: (core ++ tail'))).part =
      (Piece.declaration name (t :: (core ++ tail))).part := by
    have hbare := bare_append_semicolon (htail'.imp_left And.left) (t :: core)
    have hbare' := bare_append_semicolon htail (t :: core)
    exact congrArg (Part.mk (some name)) (hbare.trans hbare'.symm)
  rw [htake, List.cons_append, List.append_assoc, hcut, parts_declaration (not_semicolon_of_isWord ht), hpart]
  congr 1
  rcases htail with rfl | ⟨s, rfl, hs⟩
  · rcases htail' with ⟨rfl, -⟩ | ⟨s, rfl, hs⟩
    · rw [show after = rest' from hsplit]
    · -- the declaration takes a semicolon that was cut off by itself before
      rw [show after = s :: rest' from hsplit, parts_piecesFrom_semicolon hs, ← List.cons_append, List.getLast?_concat]
  · rcases htail' with ⟨rfl, hnone⟩ | ⟨s', rfl, -⟩
    · rw [List.nil_append] at hsplit
      simp [← hsplit, hs] at hnone
    · obtain ⟨rfl, rfl⟩ := List.cons.inj hsplit
      rfl

/-- The tokens `kept` are what a round leaves of the tokens `ts`. -/
def Kept (depth : Nat) (last : Option Token) (ts kept : List Token) : Prop :=
  ∃ before, kept = (dropUnmentioned before (piecesFrom depth last ts)).flatMap Piece.tokens

/-- Inside brackets and within a statement each token is kept. -/
theorem Kept.step {depth : Nat} {last : Option Token} {ts kept : List Token} {t : Token}
    (h : Kept depth last ts (t :: kept)) (hsettled : SettledAll last ts) (hinside : depth ≠ 0 ∨ ¬EndsBlockPart last) :
    ∃ ts', ts = t :: ts' ∧ SettledAll (some t) ts' ∧ Kept (depthAfter depth t) (some t) ts' kept := by
  obtain ⟨before, hkept⟩ := h
  cases ts with
  | nil => simp [piecesFrom, dropUnmentioned] at hkept
  | cons u ts =>
    have hnone : declared? depth last u ts = none := by
      cases hdeclared : declared? depth last u ts with
      | none => rfl
      | some found =>
        obtain ⟨hdepth, -, hends, -⟩ := declared?_cases hdeclared hsettled.1
        rcases hinside with hinside | hinside
        · exact absurd hdepth hinside
        · exact absurd hends hinside
    rw [piecesFrom_of_none hnone, dropUnmentioned, List.flatMap_cons] at hkept
    obtain ⟨rfl, rfl⟩ := List.cons.inj hkept
    exact ⟨ts, rfl, hsettled.2, before ++ [.token t], rfl⟩

/-- Up to the closing bracket each token is kept. -/
theorem Kept.closing {depth : Nat} {last : Option Token} {ts kept : List Token} {n : Nat}
    (h : Kept (depth + 1) last ts kept) (hsettled : SettledAll last ts)
    (hclosing : closingLength? (depth + 1) kept = some n) :
    closingLength? (depth + 1) ts = some n ∧ SettledAll ((ts.take n).getLast?.or last) (ts.drop n) ∧
      Kept 0 ((ts.take n).getLast?.or last) (ts.drop n) (kept.drop n) := by
  induction kept generalizing depth last ts n with
  | nil => cases hclosing
  | cons t kept ih =>
    obtain ⟨ts, rfl, hsettled, h⟩ := h.step hsettled (.inl (Nat.succ_ne_zero depth))
    -- all cases but the closing bracket itself go on in the same way
    have hlater : ∀ {depth' m : Nat}, depthAfter (depth + 1) t = depth' + 1 →
        closingLength? (depth' + 1) kept = some m → closingLength? (depth' + 1) ts = some m ∧
          SettledAll (((t :: ts).take (m + 1)).getLast?.or last) ((t :: ts).drop (m + 1)) ∧
          Kept 0 (((t :: ts).take (m + 1)).getLast?.or last) ((t :: ts).drop (m + 1)) ((t :: kept).drop (m + 1)) := by
      intro depth' m hdepth hm
      rw [hdepth] at h
      rw [List.take_succ_cons, or_getLast?_cons]
      exact ih h hsettled hm
    rw [closingLength?] at hclosing ⊢
    split at hclosing
    · rename_i hopening
      obtain ⟨m, hm, rfl⟩ := Option.map_eq_some_iff.mp hclosing
      obtain ⟨hts, hrest⟩ := hlater (by rw [depthAfter, if_pos hopening]) hm
      exact ⟨by rw [if_pos hopening, hts]; rfl, hrest⟩
    · rename_i hopening
      rw [if_neg hopening]
      split at hclosing
      · rename_i hcloses
        rw [if_pos hcloses]
        split at hclosing
        · rename_i hlast
          cases hclosing
          have hdepth : depthAfter (depth + 1) t = 0 := by
            rw [depthAfter, if_neg hopening, if_pos hcloses]
            omega
          rw [hdepth] at h
          exact ⟨if_pos hlast, hsettled, h⟩
        · rename_i hmore
          obtain ⟨m, hm, rfl⟩ := Option.map_eq_some_iff.mp hclosing
          obtain ⟨depth', rfl⟩ : ∃ depth', depth = depth' + 1 := ⟨depth - 1, by omega⟩
          obtain ⟨hts, hrest⟩ := hlater (by rw [depthAfter, if_neg hopening, if_pos hcloses]; rfl) hm
          refine ⟨?_, hrest⟩
          rw [if_neg hmore]
          exact congrArg (Option.map (· + 1)) hts
      · rename_i hplain
        obtain ⟨m, hm, rfl⟩ := Option.map_eq_some_iff.mp hclosing
        obtain ⟨hts, hrest⟩ := hlater (by rw [depthAfter, if_neg hopening, if_neg hplain]) hm
        exact ⟨by rw [if_neg hplain, hts]; rfl, hrest⟩

/-- No declaration comes about behind a keyword by leaving others out. -/
theorem Kept.declaration {t : Token} {ts kept : List Token} {opened after : List Char} {found : String × Nat}
    (h : Kept 0 (some t) ts kept) (ht : t.kind = .word) (hsettled : SettledAll (some t) ts)
    (hopen : openAfter opened ts = some after) (hfound : declarationLength? kept = some found) :
    declarationLength? ts ≠ none := by
  obtain ⟨word, paren, rest, brace, body, k, m, rfl, hword, hparen, hk, hbody, hbrace, hm, -⟩ :=
    declarationLength?_cases hfound
  have hopening : paren.isOpening = true := by simp [Token.isOpening, hparen]
  have hopening' : brace.isOpening = true := by simp [Token.isOpening, hbrace]
  obtain ⟨ts, rfl, hsettled, h⟩ := h.step hsettled (.inr (not_endsBlockPart (.inl ht)))
  have hplain := isPlain_of_isWord hword
  simp only [Token.isWord, Bool.and_eq_true, decide_eq_true_eq] at hword
  rw [depthAfter_plain hplain] at h
  obtain ⟨ts, rfl, hsettled, h⟩ := h.step hsettled (.inr (not_endsBlockPart (.inl hword.1)))
  rw [depthAfter_opening hopening] at h
  obtain ⟨hk', hsettled, h⟩ := h.closing hsettled hk
  rw [openAfter, openBy_plain hplain, Option.bind_some] at hopen
  obtain ⟨c, hlast, hc⟩ := (enclosed_of_closingLength? (by decide) hparen hk' hopen : Enclosed "(" ")" _).getLast?
  rw [← or_getLast?_cons paren _ none, hlast] at hsettled h
  rw [hbody] at h
  obtain ⟨block, hblock, hsettled, h⟩ := h.step hsettled (.inr (not_endsBlockPart (.inr hc)))
  rw [depthAfter_opening hopening'] at h
  obtain ⟨hm', -, -⟩ := h.closing hsettled hm
  simp [declarationLength?, hword.1, hparen, hk', hblock, hbrace, hm']

/-- **What a round leaves is cut as before.** -/
theorem parts_cut_again {depth : Nat} {last last' : Option Token} {ts : List Token} {opened after : List Char}
    (hdepth : depth = opened.length) (hopen : openAfter opened ts = some after) (hsettled : SettledAll last ts)
    (hlast : last' = last ∨ EndsBlockPart last ∧ EndsBlockPart last') (before : List Piece) :
    parts (piecesFrom depth last' ((dropUnmentioned before (piecesFrom depth last ts)).flatMap Piece.tokens)) =
      parts (dropUnmentioned before (piecesFrom depth last ts)) := by
  fun_induction piecesFrom depth last ts generalizing before last' opened with
  | case1 => rw [dropUnmentioned, List.flatMap_nil, piecesFrom]
  | case2 depth last t rest declared name n hdeclared =>
    rename_i declaration ih
    have hdeclared : declared? depth last t rest = some (name, n) := hdeclared
    obtain ⟨rfl, ht, hends, hlength⟩ := declared?_cases hdeclared hsettled.1
    have hends' : EndsBlockPart last' := by
      rcases hlast with rfl | ⟨-, hends'⟩
      · exact hends
      · exact hends'
    obtain rfl : opened = [] := List.length_eq_zero_iff.mp hdepth.symm
    have hrest : openAfter [] rest = some after := by rwa [openAfter, openBy_plain (isPlain_of_isWord ht)] at hopen
    have hdeclaration : IsDeclaration declaration := isDeclaration_of_declarationLength? ht hlength hrest
    have hparts : t :: rest = declaration ++ rest.drop n := by rw [List.cons_append, List.take_append_drop]
    rw [hparts, openAfter_nested hdeclaration.nested] at hopen
    rw [hparts] at hsettled
    have hsettled := hsettled.append
    rw [show declaration.getLast?.or last = declaration.getLast? by rw [List.getLast?_cons, Option.some_or]]
      at hsettled
    rw [dropUnmentioned]
    split
    · rw [List.flatMap_cons, Piece.tokens, parts_piecesFrom_declaration ht hends' hlength,
        parts_declaration (not_semicolon_of_isWord ht)]
      exact congrArg _ (ih rfl hopen hsettled (.inl rfl) _)
    · exact ih rfl hopen hsettled (.inr ⟨hdeclaration.endsBlockPart, hends'⟩) _
  | case3 depth last t rest declared hdeclared =>
    rename_i ih
    have hdeclared : declared? depth last t rest = none := hdeclared
    rw [openAfter, Option.bind_eq_some_iff] at hopen
    obtain ⟨middle, hmiddle, hopen⟩ := hopen
    have hagain := ih (by rw [length_openBy hmiddle, hdepth]) hopen hsettled.2 (.inl rfl) (before ++ [.token t])
    rw [dropUnmentioned, List.flatMap_cons, Piece.tokens, List.singleton_append]
    generalize hkept : (dropUnmentioned (before ++ [.token t]) (piecesFrom (depthAfter depth t) (some t) rest)).flatMap
      Piece.tokens = kept at hagain ⊢
    have hnone : declared? depth last' t kept = none := by
      rw [declared?]
      split
      · rename_i hfunction
        simp only [Bool.and_eq_true, decide_eq_true_eq] at hfunction
        obtain ⟨⟨rfl, ht⟩, hplace⟩ := hfunction
        have hplace' : isBlockPosition last t = true := by
          rcases hlast with rfl | ⟨hends, -⟩
          · exact hplace
          · exact isBlockPosition_of_endsBlockPart hends t
        rw [declared?, ht, hplace'] at hdeclared
        rw [depthAfter_plain (isPlain_of_isWord ht)] at hkept
        simp only [Token.isWord, Bool.and_eq_true, decide_eq_true_eq] at ht
        cases hfound : declarationLength? kept with
        | none => rfl
        | some found =>
          have hkept : Kept 0 (some t) rest kept := ⟨_, hkept.symm⟩
          exact absurd hdeclared (hkept.declaration ht.1 hsettled.2 hopen hfound)
      · rfl
    rw [piecesFrom_of_none hnone, ← List.singleton_append, parts_append, hagain, ← parts_append,
      List.singleton_append]

/-! ## All rounds -/

/-- One round leaves out the parts that are not supported. -/
theorem parts_keptTokens {ts : List Token} (hts : Nested ts) (hsettled : SettledAll none ts) :
    parts (pieces (keptTokens ts)) = (parts (pieces ts)).filter fun x => x.supported (parts (pieces ts)) := by
  have hcut : parts (pieces (keptTokens ts)) = parts (dropUnmentioned [] (pieces ts)) :=
    parts_cut_again (Eq.refl 0) hts hsettled (.inl rfl) []
  rw [hcut, dropUnmentioned_eq_filter named_of_mem_pieces, List.nil_append, parts_filter]

/-- **Rounds find the largest supported choice.** -/
theorem dropUnused_shaken {script ts : List Token} (hscript : Nested script)
    (h : Aligned False (MayFollow False) [] none script ts) :
    Shaken (parts (pieces ts)) (parts (pieces (dropUnused ts))) := by
  fun_induction dropUnused ts with
  | case1 ts kept hshorter ih =>
    have hts : Nested ts := by rw [Nested, ← h.openAfter_eq, hscript]
    have hround := ih (dropUnmentioned_aligned (.refl [] none ts) Nested.nil rfl hts h)
    have hkept : parts (pieces kept) = _ := parts_keptTokens hts h.settledAll
    rw [hkept] at hround
    exact hround.round
  | case2 ts kept hsame =>
    have hts : Nested ts := by rw [Nested, ← h.openAfter_eq, hscript]
    have hkept : keptTokens ts = ts := (keptTokens_sublist ts).eq_of_length_le (Nat.le_of_not_lt hsame)
    have hround := parts_keptTokens hts h.settledAll
    rw [hkept] at hround
    exact .refl (List.filter_eq_self.mp hround.symm)

/-! ## A semicolon at the front -/

theorem pieces_semicolon {s : Token} (hs : s.isPunct ";" = true) (ts : List Token) :
    pieces (s :: ts) = .token s :: pieces ts := by
  rw [pieces, piecesFrom_of_none (declared?_semicolon hs 0 none ts), depthAfter_plain (isPlain_semicolon hs),
    piecesFrom_of_endsBlockPart (endsBlockPart_of_semicolon hs)]

theorem keptTokens_semicolon {s : Token} (hs : s.isPunct ";" = true) (ts : List Token) :
    keptTokens (s :: ts) = s :: keptTokens ts := by
  rw [keptTokens, keptTokens, pieces_semicolon hs, dropUnmentioned, List.flatMap_cons,
    dropUnmentioned_eq_filter named_of_mem_pieces, dropUnmentioned_eq_filter named_of_mem_pieces, List.nil_append,
    List.singleton_append, parts_semicolon hs]
  rfl

theorem dropUnused_semicolon {s : Token} (hs : s.isPunct ";" = true) (ts : List Token) :
    dropUnused (s :: ts) = s :: dropUnused ts := by
  fun_induction dropUnused ts with
  | case1 ts kept hshorter ih =>
    rw [← dropUnused_keptTokens, keptTokens_semicolon hs]
    exact ih
  | case2 ts kept hsame =>
    have hkept : keptTokens ts = ts := (keptTokens_sublist ts).eq_of_length_le (Nat.le_of_not_lt hsame)
    exact dropUnused_of_keptTokens (by rw [keptTokens_semicolon hs, hkept])

theorem dropSemicolons_semicolon {s : Token} (hs : s.isPunct ";" = true) (ts : List Token) :
    dropSemicolons (s :: ts) = dropSemicolons ts := by
  have hdepth : parenDepthAfter 0 s = 0 := by
    simp only [Token.isPunct, Bool.and_eq_true, decide_eq_true_eq] at hs
    simp [parenDepthAfter, Token.isPunct, hs]
  rw [dropSemicolons, dropSemicolonsFrom, hs, hdepth]
  rfl

end AliasLang.Script
