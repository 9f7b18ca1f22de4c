/-
Scanning a text piece by piece. A block of text scans to the same kinds of tokens before every text, a phrase before
every text that a gap starts: a lexeme is a phrase, a phrase with a blank after it is a block, and pieces in a row scan
to the kinds of their tokens in a row.
-/
import AliasLang.Proofs.Token.Lexeme

namespace AliasLang.Token

open Source (Span Position)

/-! ## Steps of the scanner -/

/-- The tokens of a text that starts at `p` with no gap. -/
def tokensAt (p : Position) : List Char → Except LexError (List Token)
  | [] => .ok [⟨.endOfInput, .point p⟩]
  | c :: cs =>
    match lexeme c cs with
    | .error f => .error (f.locate p (c :: cs))
    | .ok (k, n) =>
      (tokensFrom (p.after (c :: cs.take n)) (cs.drop n)).map (⟨k, .between p (p.after (c :: cs.take n))⟩ :: ·)

/-- The scanner passes a gap and goes on from there. -/
theorem tokensFrom_eq (p : Position) (cs : List Char) :
    tokensFrom p cs = tokensAt (p.after (cs.take (gapLength false cs))) (cs.drop (gapLength false cs)) := by
  rw [tokensFrom]
  dsimp only
  split
  · rename_i hdrop
    rw [hdrop, tokensAt]
  · rename_i c rest hdrop
    rw [hdrop, tokensAt]
    cases lexeme c rest with
    | error f => rfl
    | ok found =>
      obtain ⟨k, n⟩ := found
      dsimp only
      cases tokensFrom _ (rest.drop n) <;> rfl

theorem tokensFrom_nil (p : Position) : tokensFrom p [] = .ok [⟨.endOfInput, .point p⟩] := tokensFrom_eq p []

/-- A blank only moves the place. -/
theorem tokensFrom_blank {c : Char} (h : c = ' ' ∨ c = '\n') (p : Position) (cs : List Char) :
    tokensFrom p (c :: cs) = tokensFrom (p.next c) cs := by
  have hgap : gapLength false (c :: cs) = gapLength false cs + 1 := by
    obtain rfl | rfl := h <;> rfl
  rw [tokensFrom_eq, tokensFrom_eq, hgap, List.drop_succ_cons, List.take_succ_cons, Position.after_cons]

/-- A lexeme is the first token. -/
theorem tokensFrom_lexeme {c : Char} {cs : List Char} {k : Kind} {n : Nat} (h : lexeme c cs = .ok (k, n))
    (p : Position) :
    tokensFrom p (c :: cs) = (tokensFrom (p.after (c :: cs.take n)) (cs.drop n)).map
      (⟨k, .between p (p.after (c :: cs.take n))⟩ :: ·) := by
  have hgap : gapLength false (c :: cs) = 0 := by
    have hc := startsGap_eq_false h
    simp only [startsGap, Bool.or_eq_false_iff, decide_eq_false_iff_not] at hc
    simp [gapLength, hc]
  rw [tokensFrom_eq, hgap, List.take_zero, List.drop_zero, Position.after_nil, tokensAt, h]

/-- All tokens are lexemes of the text, with the places where these stand, but for the last one, which is the end of
input. -/
theorem tokensFrom_ok {p : Position} {cs : List Char} {tokens : List Token} (h : tokensFrom p cs = .ok tokens) :
    ∃ front span, tokens = front ++ [⟨.endOfInput, span⟩] ∧
      ∀ t ∈ front, ∃ before c rest n, cs = before ++ c :: rest ∧ lexeme c rest = .ok (t.kind, n) ∧
        t.span = .between (p.after before) (p.after (before ++ c :: rest.take n)) := by
  fun_induction tokensFrom p cs generalizing tokens with
  | case1 p cs gap q =>
    cases h
    exact ⟨[], _, rfl, by simp⟩
  | case2 => cases h
  | case3 => cases h
  | case4 p cs gap q c rest hdrop kind n hlex q' tokens' hrest =>
    rename_i ih
    cases h
    have hcs : cs = cs.take gap ++ c :: rest := by rw [← hdrop, List.take_append_drop]
    obtain ⟨front, span, rfl, hfront⟩ := ih hrest
    refine ⟨_ :: front, span, rfl, List.forall_mem_cons.mpr ⟨⟨cs.take gap, c, rest, n, hcs, hlex, ?_⟩, fun t ht => ?_⟩⟩
    · rw [Position.after_append]
    · -- the rest of the text starts after the gap and the lexeme
      obtain ⟨before, d, rest', m, hbefore, hd, hspan⟩ := hfront t ht
      refine ⟨cs.take gap ++ (c :: rest.take n) ++ before, d, rest', m, ?_, hd, ?_⟩
      · rw [List.append_assoc, List.append_assoc, ← hbefore, List.cons_append, List.take_append_drop]
        exact hcs
      · have hq : q' = p.after (cs.take gap ++ c :: rest.take n) := (Position.after_append p _ _).symm
        rw [hspan, hq, ← Position.after_append, ← Position.after_append, List.append_assoc _ before]

/-- A text is scanned when it holds source characters only. -/
theorem tokenize_eq_ok {source : String} {tokens : List Token} :
    tokenize source = .ok tokens ↔
      (∀ c ∈ source.toList, isSourceChar c = true) ∧ tokensFrom .start source.toList = .ok tokens := by
  have hnone : source.toList.findIdx? (!isSourceChar ·) = none ↔ ∀ c ∈ source.toList, isSourceChar c = true := by
    simp [List.findIdx?_eq_none_iff]
  rw [← hnone]
  unfold tokenize
  dsimp only
  cases source.toList.findIdx? (!isSourceChar ·) <;> simp

/-! ## Phrases and blocks -/

/-- A source text whose tokens are of the kinds `ks`, wherever it starts. -/
def Lexes (cs : List Char) (ks : List Kind) : Prop :=
  (∀ c ∈ cs, isSourceChar c = true) ∧
    ∀ p, ∃ tokens, tokensFrom p cs = .ok tokens ∧ tokens.map Token.kind = ks ++ [.endOfInput]

/-- A text that adds `ks` to the kinds of every text that a gap starts. -/
def Phrase (cs : List Char) (ks : List Kind) : Prop :=
  ∀ rest js, Separated rest → Lexes rest js → Lexes (cs ++ rest) (ks ++ js)

/-- A text that adds `ks` to the kinds of every text. -/
def Block (cs : List Char) (ks : List Kind) : Prop :=
  ∀ rest js, Lexes rest js → Lexes (cs ++ rest) (ks ++ js)

theorem lexes_nil : Lexes [] [] := ⟨by simp, fun p => ⟨_, tokensFrom_nil p, rfl⟩⟩

theorem Lexes.blank {c : Char} (h : c = ' ' ∨ c = '\n') {cs : List Char} {ks : List Kind} (hcs : Lexes cs ks) :
    Lexes (c :: cs) ks := by
  refine ⟨List.forall_mem_cons.mpr ⟨?_, hcs.1⟩, fun p => ?_⟩
  · obtain rfl | rfl := h <;> rfl
  · rw [tokensFrom_blank h]
    exact hcs.2 _

theorem Block.nil : Block [] [] := fun _ _ h => h

theorem Block.append {a b : List Char} {ks js : List Kind} (ha : Block a ks) (hb : Block b js) :
    Block (a ++ b) (ks ++ js) := by
  intro rest ls hrest
  rw [List.append_assoc, List.append_assoc]
  exact ha _ _ (hb _ _ hrest)

theorem Block.phrase {a b : List Char} {ks js : List Kind} (ha : Block a ks) (hb : Phrase b js) :
    Phrase (a ++ b) (ks ++ js) := by
  intro rest ls hsep hrest
  rw [List.append_assoc, List.append_assoc]
  exact ha _ _ (hb _ _ hsep hrest)

theorem Block.lexes {cs : List Char} {ks : List Kind} (h : Block cs ks) : Lexes cs ks := by
  have := h [] [] lexes_nil
  rwa [List.append_nil, List.append_nil] at this

theorem Block.spaces (n : Nat) : Block (List.replicate n ' ') [] := by
  induction n with
  | zero => exact Block.nil
  | succ n ih => exact fun rest js hrest => (ih rest js hrest).blank (.inl rfl)

theorem Block.newline : Block ['\n'] [] := fun _ _ hrest => hrest.blank (.inr rfl)

/-- A phrase is closed by a blank. -/
theorem Phrase.closed {a : List Char} {ks : List Kind} (h : Phrase a ks) {c : Char} (hc : c = ' ' ∨ c = '\n') :
    Block (a ++ [c]) ks := by
  intro rest js hrest
  rw [List.append_assoc]
  refine h _ _ (separated_cons ?_ rest) (hrest.blank hc)
  obtain rfl | rfl := hc <;> rfl

theorem Phrase.spaced {a : List Char} {ks : List Kind} (h : Phrase a ks) : Block (a ++ [' ']) ks := h.closed (.inl rfl)

theorem Phrase.line {a : List Char} {ks : List Kind} (h : Phrase a ks) : Block (a ++ ['\n']) ks := h.closed (.inr rfl)

/-- What is read as one lexeme before every gap is a phrase of one token. -/
theorem phrase_of_lexeme {c : Char} {cs : List Char} {k : Kind} (hsource : ∀ e ∈ c :: cs, isSourceChar e = true)
    (h : ∀ rest, Separated rest → lexeme c (cs ++ rest) = .ok (k, cs.length)) : Phrase (c :: cs) [k] := by
  intro rest js hsep hrest
  refine ⟨?_, fun p => ?_⟩
  · intro e he
    rcases List.mem_append.mp he with he | he
    · exact hsource e he
    · exact hrest.1 e he
  · rw [List.cons_append, tokensFrom_lexeme (h rest hsep), List.drop_left, List.take_left]
    obtain ⟨tokens, htokens, hkinds⟩ := hrest.2 (p.after (c :: cs))
    rw [htokens]
    exact ⟨_, rfl, by rw [List.map_cons, hkinds]; rfl⟩

end AliasLang.Token
