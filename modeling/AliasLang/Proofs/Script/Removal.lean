/-
Stretches that can be left out of a script: calls of methods of `console`, function declarations outside all brackets,
and semicolons. A stretch that the passes find among their tokens, by counting brackets, has one of these shapes.
-/
import AliasLang.Proofs.Script.Passes

namespace AliasLang.Script

/-! ## Shapes -/

/-- A bracket, tokens whose brackets are nested, and the bracket that closes it. -/
def Enclosed (opening closing : String) (ts : List Token) : Prop :=
  ∃ o inner c, ts = o :: (inner ++ [c]) ∧ o.isPunct opening = true ∧ c.isPunct closing = true ∧ Nested inner

/-- A call of a method of `console`. -/
def IsConsoleCall (ts : List Token) : Prop :=
  ∃ object dot method args, ts = object :: dot :: method :: args ∧ object.isWord "console" = true ∧
    dot.isPunct "." = true ∧ method.kind = .word ∧ Enclosed "(" ")" args

/-- A function declaration, with a semicolon right after it or without. -/
def IsDeclaration (ts : List Token) : Prop :=
  ∃ keyword name params body tail, ts = keyword :: name :: (params ++ (body ++ tail)) ∧
    keyword.isWord "function" = true ∧ name.kind = .word ∧ Enclosed "(" ")" params ∧ Enclosed "\x7b" "\x7d" body ∧
    (tail = [] ∨ ∃ s, tail = [s] ∧ s.isPunct ";" = true)

theorem Enclosed.nested {opening closing : String} {ts : List Token} (h : Enclosed opening closing ts)
    (hpair : (opening, closing) ∈ [("(", ")"), ("\x7b", "\x7d")]) : Nested ts := by
  obtain ⟨o, inner, c, rfl, ho, hc, hinner⟩ := h
  simp only [List.mem_cons, List.not_mem_nil, or_false, Prod.mk.injEq] at hpair
  rcases hpair with ⟨rfl, rfl⟩ | ⟨rfl, rfl⟩
  all_goals
    refine hinner.enclose (by simp [Token.isOpening, ho]) ?_ (by simp [Token.isClosing, hc]) ?_
    · simp only [Token.isPunct, Bool.and_eq_true, decide_eq_true_eq] at hc
      simp [Token.isOpening, Token.isPunct, hc]
    · rw [bracket_of_isPunct ho, bracket_of_isPunct hc]
      rfl

theorem IsConsoleCall.nested {ts : List Token} (h : IsConsoleCall ts) : Nested ts := by
  obtain ⟨object, dot, method, args, rfl, hobject, hdot, hmethod, hargs⟩ := h
  exact .cons (isPlain_of_isWord hobject) (.cons (isPlain_of_isPunct hdot (by decide))
    (.cons (isPlain_of_kind (by simp [hmethod])) (hargs.nested (by decide))))

theorem Enclosed.getLast? {opening closing : String} {block : List Token} (h : Enclosed opening closing block) :
    ∃ c, block.getLast? = some c ∧ c.isPunct closing = true := by
  obtain ⟨o, inner, c, rfl, -, hc, -⟩ := h
  exact ⟨c, by rw [← List.cons_append, List.getLast?_concat], hc⟩

theorem or_getLast?_cons (t : Token) (a : List Token) (last : Option Token) :
    (t :: a).getLast?.or last = a.getLast?.or (some t) := by
  rw [List.getLast?_cons, Option.some_or]
  cases a.getLast? <;> rfl

theorem IsDeclaration.nested {ts : List Token} (h : IsDeclaration ts) : Nested ts := by
  obtain ⟨keyword, name, params, body, tail, rfl, hkeyword, hname, hparams, hbody, htail⟩ := h
  have htail : Nested tail := by
    rcases htail with rfl | ⟨s, rfl, hs⟩
    · exact .nil
    · exact .plain (isPlain_semicolon hs)
  exact .cons (isPlain_of_isWord hkeyword) (.cons (isPlain_of_kind (by simp [hname]))
    ((hparams.nested (by decide)).append ((hbody.nested (by decide)).append htail)))

/-! ## What the passes find -/

/-- A bracket with all up to the one that closes it. -/
theorem enclosed_of_closingLength? {opening closing : String} {o : Token} {rest : List Token} {k : Nat}
    {outer after : List Char} (hpair : (opening, closing) ∈ [("(", ")"), ("\x7b", "\x7d")])
    (ho : o.isPunct opening = true) (h : closingLength? 1 rest = some k)
    (hopen : openAfter outer (o :: rest) = some after) : Enclosed opening closing (o :: rest.take k) := by
  have hopening : o.isOpening = true := by
    simp only [List.mem_cons, List.not_mem_nil, or_false, Prod.mk.injEq] at hpair
    rcases hpair with ⟨rfl, rfl⟩ | ⟨rfl, rfl⟩ <;> simp [Token.isOpening, ho]
  rw [openAfter, openBy_opening hopening, Option.bind_some] at hopen
  obtain ⟨inner, c, htake, hinner, -, hclosing, hcloses⟩ := closingLength?_inner h [] rfl hopen
  refine ⟨o, inner, c, by rw [htake], ho, ?_, hinner⟩
  rw [bracket_of_isPunct ho] at hcloses
  simp only [List.mem_cons, List.not_mem_nil, or_false, Prod.mk.injEq] at hpair
  rcases hpair with ⟨rfl, rfl⟩ | ⟨rfl, rfl⟩
  all_goals exact isPunct_of_isClosing hclosing (by decide) hcloses.symm

/-- A call that is dropped is a statement by itself. -/
theorem consoleCallLength?_cases {last : Option Token} {t : Token} {rest : List Token} {n : Nat}
    {opened after : List Char} (h : consoleCallLength? last (t :: rest) = some n)
    (hopen : openAfter opened (t :: rest) = some after) :
    t.isWord "console" = true ∧ (isBlockPosition last t = true ∨ last.any Token.isControlPosition = true) ∧
      IsConsoleCall (t :: rest.take (n - 1)) ∧
      ∀ u ∈ (rest.drop (n - 1)).head?, u.isPunct ";" = true ∨ u.isPunct "\x7d" = true ∨ u.newlineBefore = true := by
  unfold consoleCallLength? at h
  split at h
  · rename_i t dot method paren rest hts
    cases hts
    split at h
    · rename_i hshape
      simp only [Bool.and_eq_true, decide_eq_true_eq, Bool.or_eq_true] at hshape
      obtain ⟨⟨⟨⟨ht, hdot⟩, hmethod⟩, hparen⟩, hplace⟩ := hshape
      have hmethod' : method.isPlain = true := isPlain_of_kind (by simp [hmethod])
      rw [openAfter, openBy_plain (isPlain_of_isWord ht), Option.bind_some, openAfter,
        openBy_plain (isPlain_of_isPunct hdot (by decide)), Option.bind_some, openAfter, openBy_plain hmethod',
        Option.bind_some] at hopen
      split at h
      · cases h
      · rename_i m hm
        have hargs : Enclosed "(" ")" (paren :: rest.take m) := enclosed_of_closingLength? (by decide) hparen hm hopen
        obtain ⟨rfl, hnext⟩ : n = m + 4 ∧ ∀ u ∈ (rest.drop m).head?, u.isPunct ";" = true ∨
            u.isPunct "\x7d" = true ∨ u.newlineBefore = true := by
          split at h
          · rename_i hhead
            cases h
            exact ⟨rfl, by simp [hhead]⟩
          · rename_i next hhead
            split at h
            · rename_i hends
              cases h
              refine ⟨rfl, fun u hu => ?_⟩
              rw [hhead] at hu
              cases hu
              simpa [or_assoc] using hends
            · cases h
        exact ⟨ht, hplace, ⟨t, dot, method, _, rfl, ht, hdot, hmethod, hargs⟩, hnext⟩
    · cases h
  · cases h

theorem isDeclaration_of_declarationLength? {keyword : Token} {rest : List Token} {name : String} {n : Nat}
    {opened after : List Char} (hkeyword : keyword.isWord "function" = true)
    (h : declarationLength? rest = some (name, n)) (hopen : openAfter opened rest = some after) :
    IsDeclaration (keyword :: rest.take n) := by
  obtain ⟨word, paren, rest, brace, body, k, m, rfl, hword, hparen, hk, hbody, hbrace, hm, rfl⟩ :=
    declarationLength?_cases h
  rw [openAfter, openBy_plain (isPlain_of_isWord hword), Option.bind_some] at hopen
  have hparams : Enclosed "(" ")" (paren :: rest.take k) := enclosed_of_closingLength? (by decide) hparen hk hopen
  have hparts : paren :: rest = (paren :: rest.take k) ++ brace :: body := by
    rw [← hbody, List.cons_append, List.take_append_drop]
  rw [hparts, openAfter_nested (hparams.nested (by decide))] at hopen
  have hblock : Enclosed "\x7b" "\x7d" (brace :: body.take m) :=
    enclosed_of_closingLength? (by decide) hbrace hm hopen
  simp only [Token.isWord, Bool.and_eq_true, decide_eq_true_eq] at hword
  refine ⟨keyword, word, _, _, _, congrArg _ (take_declaration word paren hbody m _), hkeyword, hword.1, hparams,
    hblock, ?_⟩
  split
  · rename_i hhead
    cases hdrop : body.drop m with
    | nil => exact .inl rfl
    | cons s later =>
      rw [hdrop] at hhead
      exact .inr ⟨s, rfl, hhead⟩
  · exact .inl rfl

/-! ## Where statements start -/

/-- Behind this token a block goes on with a new statement. -/
def EndsBlockPart (last : Option Token) : Prop :=
  ∀ p ∈ last, p.isPunct ";" = true ∨ p.isPunct "\x7b" = true ∨ p.isPunct "\x7d" = true

/-- A statement can start with `t` behind the token `last`: a semicolon, a brace, a line break or nothing stands before
it. -/
def MayStart (last : Option Token) (t : Token) : Prop := EndsBlockPart last ∨ t.newlineBefore = true

theorem isBlockPosition_cases {last : Option Token} {t : Token} (h : isBlockPosition last t = true) :
    EndsBlockPart last ∨ ∃ p, last = some p ∧ t.newlineBefore = true ∧ p.endsStatement = true := by
  cases last with
  | none => exact .inl fun p hp => by cases hp
  | some p =>
    simp only [isBlockPosition, Bool.or_eq_true, Bool.and_eq_true] at h
    rcases h with ((h | h) | h) | h
    · exact .inl fun q hq => by cases hq; exact .inl h
    · exact .inl fun q hq => by cases hq; exact .inr (.inl h)
    · exact .inl fun q hq => by cases hq; exact .inr (.inr h)
    · exact .inr ⟨p, rfl, h.1.1, h.1.2⟩

theorem mayStart_of_isBlockPosition {last : Option Token} {t : Token} (h : isBlockPosition last t = true) :
    MayStart last t := by
  rcases isBlockPosition_cases h with h | ⟨p, -, hbreak, -⟩
  · exact .inl h
  · exact .inr hbreak

theorem endsBlockPart_of_semicolon {s : Token} (hs : s.isPunct ";" = true) : EndsBlockPart (some s) := by
  intro p hp
  cases hp
  exact .inl hs

theorem not_endsBlockPart {t : Token} (h : t.kind = .word ∨ t.isPunct ")" = true) : ¬EndsBlockPart (some t) := by
  intro hends
  rcases h with h | h
  · rcases hends t rfl with ht | ht | ht <;> simp [Token.isPunct, h] at ht
  · simp only [Token.isPunct, Bool.and_eq_true, decide_eq_true_eq] at h
    rcases hends t rfl with ht | ht | ht <;> simp [Token.isPunct, h.2] at ht

theorem IsDeclaration.endsBlockPart {ts : List Token} (h : IsDeclaration ts) : EndsBlockPart ts.getLast? := by
  obtain ⟨keyword, name, params, body, tail, rfl, -, -, -, hbody, htail⟩ := h
  obtain ⟨c, hlast, hc⟩ := hbody.getLast?
  intro p hp
  rcases htail with rfl | ⟨s, rfl, hs⟩
  · rw [List.append_nil, ← List.cons_append, ← List.cons_append, List.getLast?_append, hlast] at hp
    cases hp
    exact .inr (.inr hc)
  · rw [← List.append_assoc, ← List.cons_append, ← List.cons_append, List.getLast?_concat] at hp
    cases hp
    exact .inl hs

/-! ## Stretches -/

/-- What may be left out behind the tokens `front`, one after another: console calls, function declarations outside all
brackets, and semicolons. A call starts a statement or is the body of a statement head, and a declaration starts a
statement. When `parted`, more of them may stand between the parts of a declaration. -/
inductive Removable (parted : Prop) : (front ts : List Token) → Prop
  | nil {front : List Token} : Removable parted front []
  | semicolon {front ts : List Token} {t : Token} (ht : t.isPunct ";" = true)
      (hrest : Removable parted (front ++ [t]) ts) : Removable parted front (t :: ts)
  | call {front call ts : List Token} (hcall : IsConsoleCall call)
      (hplace : ∀ t ∈ call.head?, MayStart front.getLast? t ∨ front.getLast?.any Token.isControlPosition = true)
      (hrest : Removable parted (front ++ call) ts) : Removable parted front (call ++ ts)
  | declaration {front between params between' body ts : List Token} {keyword name : Token} (hfront : Nested front)
      (hplace : MayStart front.getLast? keyword) (hkeyword : keyword.isWord "function" = true)
      (hname : name.kind = .word) (hbetween : Removable parted (front ++ [keyword, name]) between)
      (hparams : Enclosed "(" ")" params)
      (hbetween' : Removable parted (front ++ keyword :: name :: (between ++ params)) between')
      (hbody : Enclosed "\x7b" "\x7d" body) (hparted : parted ∨ between = [] ∧ between' = [])
      (hrest : Removable parted (front ++ keyword :: name :: (between ++ params ++ (between' ++ body))) ts) :
      Removable parted front (keyword :: name :: (between ++ params ++ (between' ++ body)) ++ ts)

variable {parted : Prop} {front : List Token}

theorem Removable.append {a b : List Token} (ha : Removable parted front a) (hb : Removable parted (front ++ a) b) :
    Removable parted front (a ++ b) := by
  induction ha with
  | nil => rwa [List.append_nil] at hb
  | semicolon ht _ ih => exact .semicolon ht (ih (by rwa [List.append_assoc]))
  | call hcall hplace _ ih =>
    rw [List.append_assoc]
    exact .call hcall hplace (ih (by rwa [List.append_assoc]))
  | declaration hfront hplace hkeyword hname hbetween hparams hbetween' hbody hparted _ _ _ ih =>
    rw [List.append_assoc]
    exact .declaration hfront hplace hkeyword hname hbetween hparams hbetween' hbody hparted
      (ih (by rwa [List.append_assoc]))

theorem Removable.nested {ts : List Token} (h : Removable parted front ts) : Nested ts := by
  induction h with
  | nil => exact .nil
  | semicolon ht _ ih => exact .cons (isPlain_semicolon ht) ih
  | call hcall _ _ ih => exact hcall.nested.append ih
  | declaration _ _ hkeyword hname _ hparams _ hbody _ _ ih ih' ih'' =>
    refine .append (.cons (isPlain_of_isWord hkeyword) (.cons (isPlain_of_kind (by simp [hname])) ?_)) ih''
    exact (ih.append (hparams.nested (by decide))).append (ih'.append (hbody.nested (by decide)))

end AliasLang.Script
