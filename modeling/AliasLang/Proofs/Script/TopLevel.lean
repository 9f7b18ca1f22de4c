/-
Function declarations outside all brackets, by where they stand. Where brackets are properly nested, the declarations
among the pieces of a script are exactly these: the cut passes over whole declarations, and nowhere inside of one, but
within brackets, another one could start.
-/
import AliasLang.Proofs.Script.Shaking

namespace AliasLang.Script

/-! ## Declarations by their places -/

/-- Between `before` and `after`, the tokens `ts` hold the declaration `d` of the function `name`. It stands outside all
brackets and starts a statement, and a semicolon right after it belongs to it. -/
structure TopLevel (ts before : List Token) (name : String) (d after : List Token) : Prop where
  split : ts = before ++ (d ++ after)
  outside : Nested before
  shape : IsDeclaration d
  named : d[1]?.any (·.isWord name) = true
  start : d.head?.any (isBlockPosition before.getLast? ·) = true
  whole : d.getLast?.any (·.isPunct ";") = true ∨ after.head?.any (·.isPunct ";") = false

/-- The declaration `d` of `name` is a piece of the script, between the pieces that `before` and `after` consist of. -/
def CutOff (ts before : List Token) (name : String) (d after : List Token) : Prop :=
  ∃ ps qs, pieces ts = ps ++ .declaration name d :: qs ∧ ps.flatMap Piece.tokens = before ∧
    qs.flatMap Piece.tokens = after

/-! ## Recognising a declaration -/

/-- A bracket closes the one in front of nested tokens. -/
theorem closingLength?_of_openAfter {c : Token} (hno : ¬c.isOpening = true) (hc : c.isClosing = true)
    {inside : List Char} {inner : List Token} (h : openAfter inside inner = some []) (rest : List Token) :
    closingLength? (inside.length + 1) (inner ++ c :: rest) = some (inner.length + 1) := by
  induction inner generalizing inside with
  | nil =>
    cases h
    rw [List.nil_append, closingLength?, if_neg hno, if_pos hc]
    rfl
  | cons t inner ih =>
    rw [openAfter, Option.bind_eq_some_iff] at h
    obtain ⟨inside', hinside', h⟩ := h
    have hlater := ih h
    rw [length_openBy hinside', depthAfter] at hlater
    rw [List.cons_append, closingLength?]
    by_cases hopening : t.isOpening = true
    · rw [if_pos hopening] at hlater ⊢
      rw [hlater]
      rfl
    rw [if_neg hopening] at hlater ⊢
    by_cases hclosing : t.isClosing = true
    · -- the bracket that `t` closes is among those inside, so more than one is open
      have hsome : inside ≠ [] := by
        rintro rfl
        simp [openBy, hopening, hclosing] at hinside'
      have hdepth : 0 < inside.length := List.length_pos_iff.mpr hsome
      rw [if_pos hclosing] at hlater ⊢
      rw [if_neg (by omega), Nat.add_sub_cancel]
      rw [Nat.sub_add_cancel hdepth] at hlater
      rw [hlater]
      rfl
    · rw [if_neg hclosing] at hlater ⊢
      rw [hlater]
      rfl

theorem closing_of_isPunct {c : Token} {closing : String} (hc : c.isPunct closing = true)
    (hclosing : closing ∈ [")", "\x7d"]) : ¬c.isOpening = true ∧ c.isClosing = true := by
  simp only [List.mem_cons, List.not_mem_nil, or_false] at hclosing
  simp only [Token.isPunct, Bool.and_eq_true, decide_eq_true_eq] at hc
  rcases hclosing with rfl | rfl
  all_goals simp [Token.isOpening, Token.isClosing, Token.isPunct, hc]

/-- A declaration is recognised at its keyword, up to its end. -/
theorem declarationLength?_of_isDeclaration {d after : List Token} {name : String} (hd : IsDeclaration d)
    (hnamed : d[1]?.any (·.isWord name) = true)
    (hwhole : d.getLast?.any (·.isPunct ";") = true ∨ after.head?.any (·.isPunct ";") = false) :
    ∃ keyword rest, d = keyword :: rest ∧ keyword.isWord "function" = true ∧
      declarationLength? (rest ++ after) = some (name, rest.length) := by
  obtain ⟨keyword, word, params, body, tail, rfl, hkeyword, hword, hparams, hbody, htail⟩ := hd
  obtain ⟨o, inner, c, rfl, ho, hc, hinner⟩ := hparams
  obtain ⟨o', inner', c', rfl, ho', hc', hinner'⟩ := hbody
  obtain ⟨hno, hclosing⟩ := closing_of_isPunct hc (by decide)
  obtain ⟨hno', hclosing'⟩ := closing_of_isPunct hc' (by decide)
  refine ⟨keyword, _, rfl, hkeyword, ?_⟩
  have hname : word.text = name := by
    have hnamed : word.isWord name = true := hnamed
    simp only [Token.isWord, Bool.and_eq_true, decide_eq_true_eq] at hnamed
    exact hnamed.2
  have hsemicolon : (if (tail ++ after).head?.any (·.isPunct ";") then 1 else 0) = tail.length := by
    rcases htail with rfl | ⟨s, rfl, hs⟩
    · have hlast : ¬c'.isPunct ";" = true := by
        simp only [Token.isPunct, Bool.and_eq_true, decide_eq_true_eq] at hc' ⊢
        simp [hc']
      have hafter : after.head?.any (·.isPunct ";") = false := by
        have hend : keyword :: word :: (o :: (inner ++ [c]) ++ (o' :: (inner' ++ [c']) ++ [])) =
            keyword :: word :: (o :: (inner ++ [c]) ++ o' :: inner') ++ [c'] := by simp
        rw [hend, List.getLast?_concat] at hwhole
        exact hwhole.resolve_left hlast
      simp [hafter]
    · simp [hs]
  have hparams := closingLength?_of_openAfter hno hclosing hinner (o' :: (inner' ++ c' :: (tail ++ after)))
  have hblock := closingLength?_of_openAfter hno' hclosing' hinner' (tail ++ after)
  rw [List.length_nil, Nat.zero_add] at hparams hblock
  have hdrop : (inner ++ c :: o' :: (inner' ++ c' :: (tail ++ after))).drop (inner.length + 1) =
      o' :: (inner' ++ c' :: (tail ++ after)) := by simp
  have hdrop' : (inner' ++ c' :: (tail ++ after)).drop (inner'.length + 1) = tail ++ after := by simp
  have hshape : word :: (o :: (inner ++ [c]) ++ (o' :: (inner' ++ [c']) ++ tail)) ++ after =
      word :: o :: (inner ++ c :: o' :: (inner' ++ c' :: (tail ++ after))) := by simp
  rw [hshape, declarationLength?]
  simp only [hword, ho, decide_true, Bool.and_self, if_true, hparams, hdrop, ho', hblock, hdrop', hsemicolon, hname,
    Option.some.injEq, Prod.mk.injEq, true_and]
  simp only [List.length_cons, List.length_append, List.length_nil]
  omega

/-! ## Inside a declaration -/

/-- Nested tokens in front of a token do not end inside brackets. -/
theorem Enclosed.skip {opening closing : String} {block x y rest : List Token} {t : Token}
    (hblock : Enclosed opening closing block) (hpair : (opening, closing) ∈ [("(", ")"), ("\x7b", "\x7d")])
    (hx : Nested x) (h : x ++ t :: y = block ++ rest) :
    t.isPunct opening = true ∨ ∃ x', Nested x' ∧ x' ++ t :: y = rest := by
  have hnested := hblock.nested hpair
  obtain ⟨o, inner, c, rfl, ho, -, hinner⟩ := hblock
  cases x with
  | nil =>
    obtain ⟨rfl, -⟩ := List.cons.inj h
    exact .inl ho
  | cons u x =>
    rw [List.cons_append, List.cons_append, List.append_assoc, List.singleton_append] at h
    obtain ⟨rfl, htail⟩ := List.cons.inj h
    have hopening : u.isOpening = true := by
      simp only [List.mem_cons, List.not_mem_nil, or_false, Prod.mk.injEq] at hpair
      rcases hpair with ⟨rfl, rfl⟩ | ⟨rfl, rfl⟩ <;> simp [Token.isOpening, ho]
    have hopen : openAfter [u.bracket] x = some [] := by
      rwa [Nested, openAfter, openBy_opening hopening, Option.bind_some] at hx
    -- up to any place inside, the first bracket is still open
    have hinside : ∀ {z}, inner = x ++ z → False := by
      rintro z rfl
      rw [Nested, openAfter_append, Option.bind_eq_some_iff] at hinner
      obtain ⟨opened, hopened, -⟩ := hinner
      have houter := openAfter_outer hopened [u.bracket]
      rw [List.nil_append, hopen] at houter
      simp at houter
    rcases List.append_eq_append_iff.mp htail with ⟨z, hz, -⟩ | ⟨z, hz, hrest⟩
    · exact (hinside hz).elim
    · cases z with
      | nil => exact (@hinside [] (by rw [hz, List.append_nil, List.append_nil])).elim
      | cons v z =>
        rw [List.cons_append] at hrest
        obtain ⟨rfl, hafter⟩ := List.cons.inj hrest
        refine .inr ⟨z, ?_, hafter.symm⟩
        have hsplit : u :: x = u :: (inner ++ [c]) ++ z := by simp [hz]
        rwa [hsplit, Nested, openAfter_nested hnested] at hx

theorem not_isWord_of_isPunct {t : Token} {text word : String} (h : t.isPunct text = true) :
    ¬t.isWord word = true := by
  simp only [Token.isPunct, Bool.and_eq_true, decide_eq_true_eq] at h
  simp [Token.isWord, h.1]

/-- No statement starts right behind the keyword of a declaration. -/
theorem isBlockPosition_keyword {keyword : Token} (h : keyword.isWord "function" = true) (t : Token) :
    isBlockPosition (some keyword) t = false := by
  simp only [Token.isWord, Bool.and_eq_true, decide_eq_true_eq] at h
  have hends : keyword.endsStatement = false := by
    simp only [Token.endsStatement, h.1, h.2]
    decide
  simp [isBlockPosition, Token.isPunct, h.1, hends]

/-- Outside its brackets, no declaration starts within another one. -/
theorem IsDeclaration.none_inside {d x y : List Token} {t : Token} (hd : IsDeclaration d) (h : d = x ++ t :: y)
    (hsome : x ≠ []) (hx : Nested x) (ht : t.isWord "function" = true) :
    isBlockPosition x.getLast? t = false := by
  obtain ⟨keyword, word, params, body, tail, rfl, hkeyword, hword, hparams, hbody, htail⟩ := hd
  obtain ⟨u, x, rfl⟩ := List.exists_cons_of_ne_nil hsome
  obtain ⟨rfl, hrest⟩ := List.cons.inj h
  cases x with
  | nil => exact isBlockPosition_keyword hkeyword t
  | cons v x =>
    obtain ⟨rfl, hlater⟩ := List.cons.inj hrest
    have hplain : word.isPlain = true := isPlain_of_kind (by simp [hword])
    have hx : Nested x := by
      rwa [Nested, openAfter, openBy_plain (isPlain_of_isWord hkeyword), Option.bind_some, openAfter,
        openBy_plain hplain] at hx
    -- a word stands at none of the other places
    rcases hparams.skip (by decide) hx hlater.symm with hpunct | ⟨x, hx, h⟩
    · exact absurd ht (not_isWord_of_isPunct hpunct)
    rcases hbody.skip (by decide) hx h with hpunct | ⟨x, hx, h⟩
    · exact absurd ht (not_isWord_of_isPunct hpunct)
    rcases htail with rfl | ⟨s, rfl, hs⟩
    · simp at h
    · have hmem : t ∈ [s] := by
        rw [← h]
        simp
      rw [List.mem_singleton.mp hmem] at ht
      exact absurd ht (not_isWord_of_isPunct hs)

/-! ## What the cut finds -/

/-- What is known of a declaration where it is cut off. -/
theorem declared?_found {last : Option Token} {t : Token} {rest : List Token} {name : String} {n : Nat}
    {opened after : List Char} {depth : Nat} (h : declared? depth last t rest = some (name, n))
    (hopen : openAfter opened (t :: rest) = some after) :
    depth = 0 ∧ IsDeclaration (t :: rest.take n) ∧ (t :: rest.take n)[1]?.any (·.isWord name) = true ∧
      isBlockPosition last t = true ∧
      ((t :: rest.take n).getLast?.any (·.isPunct ";") = true ∨ (rest.drop n).head?.any (·.isPunct ";") = false) := by
  unfold declared? at h
  split at h
  · rename_i hfunction
    simp only [Bool.and_eq_true, decide_eq_true_eq] at hfunction
    obtain ⟨⟨hdepth, ht⟩, hplace⟩ := hfunction
    rw [openAfter, openBy_plain (isPlain_of_isWord ht), Option.bind_some] at hopen
    refine ⟨hdepth, isDeclaration_of_declarationLength? ht h hopen, ?_, hplace, ?_⟩
    · obtain ⟨word, paren, rest, brace, body, k, m, rfl, hword, -, -, -, -, -, rfl⟩ := declarationLength?_cases h
      rw [show ∀ i, k + m + 3 + i = (k + m + 2 + i) + 1 from fun i => by omega, List.take_succ_cons]
      simpa using hword
    · obtain ⟨core, tail, htake, htail, hlength⟩ := declarationLength?_take h
      have hagain := hlength (tail ++ rest.drop n)
      rw [← List.append_assoc, ← htake, List.take_append_drop, h] at hagain
      have hn : n = core.length + if (tail ++ rest.drop n).head?.any (·.isPunct ";") then 1 else 0 := by
        simpa using hagain
      rcases htail with rfl | ⟨s, rfl, hs⟩
      · right
        rw [List.append_nil] at htake
        have hle : core.length ≤ n := by
          rw [← htake]
          exact List.length_take_le n rest
        by_cases hhead : (rest.drop n).head?.any (·.isPunct ";") = true
        · -- the semicolon would have been taken
          have hfits : n ≤ rest.length := by
            cases hdrop : rest.drop n with
            | nil => simp [hdrop] at hhead
            | cons s later =>
              have hsize := congrArg List.length hdrop
              rw [List.length_drop, List.length_cons] at hsize
              omega
          have hcore : core.length = n := by rw [← htake, List.length_take_of_le hfits]
          rw [List.nil_append, if_pos hhead] at hn
          omega
        · simpa using hhead
      · left
        rw [htake, ← List.cons_append, List.getLast?_concat]
        exact hs
  · cases h

/-- A piece that is a declaration stands outside all brackets, where a statement starts. -/
theorem topLevel_of_piecesFrom (front : List Token) {depth : Nat} {last : Option Token} {ts d : List Token}
    {ps qs : List Piece} {name : String} {opened after : List Char} (hfront : openAfter [] front = some opened)
    (hlast : front.getLast? = last) (hdepth : depth = opened.length) (hopen : openAfter opened ts = some after)
    (h : piecesFrom depth last ts = ps ++ .declaration name d :: qs) :
    TopLevel (front ++ ts) (front ++ ps.flatMap Piece.tokens) name d (qs.flatMap Piece.tokens) := by
  fun_induction piecesFrom depth last ts generalizing front opened ps with
  | case1 => simp at h
  | case2 depth last t rest declared name' n hdeclared =>
    rename_i declaration ih
    have hdeclared : declared? depth last t rest = some (name', n) := hdeclared
    obtain ⟨rfl, hshape, hnamed, hplace, hwhole⟩ := declared?_found hdeclared hopen
    obtain rfl : opened = [] := List.length_eq_zero_iff.mp hdepth.symm
    have hsplit : t :: rest = declaration ++ rest.drop n := by rw [List.cons_append, List.take_append_drop]
    have hnested : Nested declaration := hshape.nested
    cases ps with
    | nil =>
      obtain ⟨hpiece, rfl⟩ := List.cons.inj h
      obtain ⟨rfl, rfl⟩ := Piece.declaration.inj hpiece
      rw [List.flatMap_nil, List.append_nil, piecesFrom_tokens]
      exact ⟨by rw [hsplit], hfront, hshape, hnamed, by simpa [declaration, hlast] using hplace, hwhole⟩
    | cons p ps =>
      obtain ⟨rfl, hrest⟩ := List.cons.inj h
      rw [hsplit, openAfter_nested hnested] at hopen
      have hfront' : openAfter [] (front ++ declaration) = some [] := by
        rw [openAfter_append, hfront, Option.bind_some, hnested]
      have hlast' : (front ++ declaration).getLast? = declaration.getLast? := by
        rw [List.getLast?_append, List.getLast?_cons, Option.some_or]
      have hlater := ih _ hfront' hlast' rfl hopen hrest
      rwa [List.append_assoc, ← hsplit, List.append_assoc] at hlater
  | case3 depth last t rest declared hdeclared =>
    rename_i ih
    cases ps with
    | nil => cases (List.cons.inj h).1
    | cons p ps =>
      obtain ⟨rfl, hrest⟩ := List.cons.inj h
      rw [openAfter, Option.bind_eq_some_iff] at hopen
      obtain ⟨middle, hmiddle, hopen⟩ := hopen
      have hfront' : openAfter [] (front ++ [t]) = some middle := by
        rw [openAfter_append, hfront, Option.bind_some, openAfter, hmiddle]
        rfl
      have hlater := ih _ hfront' List.getLast?_concat (by rw [length_openBy hmiddle, hdepth]) hopen hrest
      rwa [List.append_assoc, List.append_assoc] at hlater

/-- A declaration that stands outside all brackets, where a statement starts, is cut off. -/
theorem piecesFrom_of_topLevel {depth : Nat} {last : Option Token} {ts before d after : List Token} {name : String}
    {opened : List Char} (hdepth : depth = opened.length) (hopen : openAfter opened ts = some [])
    (hsplit : ts = before ++ (d ++ after)) (hbefore : openAfter opened before = some []) (hd : IsDeclaration d)
    (hnamed : d[1]?.any (·.isWord name) = true)
    (hplace : d.head?.any (isBlockPosition (before.getLast?.or last) ·) = true)
    (hwhole : d.getLast?.any (·.isPunct ";") = true ∨ after.head?.any (·.isPunct ";") = false) :
    ∃ ps qs, piecesFrom depth last ts = ps ++ .declaration name d :: qs ∧ ps.flatMap Piece.tokens = before ∧
      qs.flatMap Piece.tokens = after := by
  obtain ⟨keyword, drest, rfl, hkeyword, hlength⟩ := declarationLength?_of_isDeclaration hd hnamed hwhole
  -- where it comes next, it is recognised
  have hhere : ∀ last {depth t rest}, t :: rest = keyword :: drest ++ after → depth = 0 →
      isBlockPosition last keyword = true →
      t = keyword ∧ rest = drest ++ after ∧ declared? depth last t rest = some (name, drest.length) := by
    intro last depth t rest h hzero hblock
    rw [List.cons_append] at h
    obtain ⟨rfl, rfl⟩ := List.cons.inj h
    refine ⟨rfl, rfl, ?_⟩
    rw [declared?, hkeyword, hblock, hlength, hzero]
    rfl
  fun_induction piecesFrom depth last ts generalizing before opened with
  | case1 => simp at hsplit
  | case2 depth last t rest declared name' n hdeclared =>
    rename_i declaration ih
    have hdeclared : declared? depth last t rest = some (name', n) := hdeclared
    obtain ⟨rfl, hshape, -, -, -⟩ := declared?_found hdeclared hopen
    obtain rfl : opened = [] := List.length_eq_zero_iff.mp hdepth.symm
    have hparts : t :: rest = declaration ++ rest.drop n := by rw [List.cons_append, List.take_append_drop]
    have hnested : Nested declaration := hshape.nested
    cases before with
    | nil =>
      obtain ⟨rfl, rfl, hfound⟩ := hhere last hsplit rfl hplace
      rw [hdeclared] at hfound
      obtain ⟨rfl, rfl⟩ := Prod.mk.inj (Option.some.inj hfound)
      refine ⟨[], _, ?_, rfl, piecesFrom_tokens 0 declaration.getLast? after⟩
      simp [declaration]
    | cons u before =>
      rw [hparts] at hsplit
      have hlater : ∃ between, u :: before = declaration ++ between ∧
          rest.drop n = between ++ (keyword :: drest ++ after) := by
        rcases List.append_eq_append_iff.mp hsplit with ⟨between, hbetween, hrest⟩ | ⟨within, hwithin, hrest⟩
        · exact ⟨between, hbetween, hrest⟩
        · cases within with
          | nil => exact ⟨[], by rw [hwithin]; simp, by rw [hrest]; rfl⟩
          | cons v within =>
            obtain ⟨rfl, -⟩ := List.cons.inj hrest
            -- its keyword would stand inside the declaration that is cut off here
            have hnone := hshape.none_inside hwithin (by simp) hbefore hkeyword
            rw [List.getLast?_cons, Option.some_or] at hplace
            rw [List.getLast?_cons] at hnone
            simp [hnone] at hplace
      obtain ⟨between, hbetween, hrest⟩ := hlater
      rw [hparts, openAfter_nested hnested] at hopen
      rw [hbetween, openAfter_nested hnested] at hbefore
      have hlast : (u :: before).getLast?.or last = between.getLast?.or declaration.getLast? := by
        rw [hbetween, List.getLast?_append, List.getLast?_cons]
        cases between.getLast? <;> rfl
      rw [hlast] at hplace
      obtain ⟨ps, qs, hpieces, hps, hqs⟩ := ih rfl hopen hbefore hrest hplace
      refine ⟨.declaration name' declaration :: ps, qs, by rw [hpieces]; rfl, ?_, hqs⟩
      rw [List.flatMap_cons, hps, hbetween]
      rfl
  | case3 depth last t rest declared hdeclared =>
    rename_i ih
    have hdeclared : declared? depth last t rest = none := hdeclared
    cases before with
    | nil =>
      cases hbefore
      obtain ⟨-, -, hfound⟩ := hhere last hsplit hdepth hplace
      rw [hdeclared] at hfound
      cases hfound
    | cons u before =>
      obtain ⟨rfl, hrest⟩ := List.cons.inj hsplit
      rw [openAfter, Option.bind_eq_some_iff] at hopen hbefore
      obtain ⟨middle, hmiddle, hopen⟩ := hopen
      obtain ⟨middle', hmiddle', hbefore⟩ := hbefore
      rw [hmiddle] at hmiddle'
      cases hmiddle'
      rw [or_getLast?_cons] at hplace
      obtain ⟨ps, qs, hpieces, hps, hqs⟩ := ih (by rw [length_openBy hmiddle, hdepth]) hopen hbefore hrest hplace
      refine ⟨.token t :: ps, qs, by rw [hpieces]; rfl, ?_, hqs⟩
      rw [List.flatMap_cons, hps]
      rfl

/-- **The cut finds the declarations outside all brackets**, and nothing else. -/
theorem cutOff_iff_topLevel {ts before d after : List Token} {name : String} (hts : Nested ts) :
    CutOff ts before name d after ↔ TopLevel ts before name d after := by
  constructor
  · rintro ⟨ps, qs, hpieces, rfl, rfl⟩
    exact topLevel_of_piecesFrom [] rfl rfl rfl hts hpieces
  · intro h
    refine piecesFrom_of_topLevel rfl hts h.split h.outside h.shape h.named ?_ h.whole
    rw [Option.or_none]
    exact h.start

end AliasLang.Script
