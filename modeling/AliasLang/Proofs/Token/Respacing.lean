/-
Layout does not matter. The texts of the tokens of a source, written again in order with any white space and comments
between them, scan to the same kinds of tokens: a lexeme is read up to its end before whatever starts a gap, and a gap
is passed over up to the lexeme after it.
-/
import AliasLang.Proofs.Token.Partition

namespace AliasLang.Token

open Source

/-! ## Separators -/

/-- Text that may stand between two tokens: blanks, tabs, carriage returns, line feeds, and comments that a line feed
ends. -/
inductive IsSeparator : List Char → Prop
  | nil : IsSeparator []
  | blank {c : Char} {rest : List Char} (hc : c = ' ' ∨ c = '\t' ∨ c = '\r' ∨ c = '\n') (hrest : IsSeparator rest) :
      IsSeparator (c :: rest)
  | comment {words rest : List Char} (hwords : ∀ c ∈ words, isSourceChar c = true ∧ c ≠ '\n')
      (hrest : IsSeparator rest) : IsSeparator ('#' :: (words ++ '\n' :: rest))

theorem IsSeparator.isSourceChar {gap : List Char} (h : IsSeparator gap) : ∀ c ∈ gap, isSourceChar c = true := by
  induction h with
  | nil => simp
  | blank hc _ ih =>
    refine List.forall_mem_cons.mpr ⟨?_, ih⟩
    obtain rfl | rfl | rfl | rfl := hc <;> rfl
  | comment hwords _ ih =>
    refine List.forall_mem_cons.mpr ⟨rfl, List.forall_mem_append.mpr ⟨fun c hc => (hwords c hc).1, ?_⟩⟩
    exact List.forall_mem_cons.mpr ⟨rfl, ih⟩

/-- A separator is no part of the lexeme in front of it. -/
theorem IsSeparator.separated {gap : List Char} (h : IsSeparator gap) {rest : List Char}
    (hrest : gap = [] → Separated rest) : Separated (gap ++ rest) := by
  cases h with
  | nil => exact hrest rfl
  | blank hc _ =>
    refine separated_cons ?_ _
    obtain rfl | rfl | rfl | rfl := hc <;> rfl
  | comment => exact separated_cons rfl _

theorem gapLength_comment {words : List Char} (h : '\n' ∉ words) (rest : List Char) :
    gapLength true (words ++ '\n' :: rest) = words.length + 1 + gapLength false rest := by
  induction words with
  | nil =>
    rw [List.nil_append, gapLength, if_pos rfl, List.length_nil]
    omega
  | cons c words ih =>
    rw [List.mem_cons, not_or] at h
    have hfeed : c ≠ '\n' := fun hc => h.1 hc.symm
    rw [List.cons_append, gapLength, if_neg hfeed, if_pos (by simp), ih h.2, List.length_cons]
    omega

/-- The scanner passes a separator and all of the gap behind it. -/
theorem IsSeparator.gapLength {gap : List Char} (h : IsSeparator gap) (rest : List Char) :
    gapLength false (gap ++ rest) = gap.length + gapLength false rest := by
  induction h with
  | nil => simp
  | @blank c gap hc _ ih =>
    have hstep : Token.gapLength false (c :: (gap ++ rest)) = Token.gapLength false (gap ++ rest) + 1 := by
      obtain rfl | rfl | rfl | rfl := hc <;> rfl
    rw [List.cons_append, hstep, ih, List.length_cons]
    omega
  | @comment words gap hwords _ ih =>
    have hfeed : '\n' ∉ words := fun hmem => (hwords _ hmem).2 rfl
    have hstep : ∀ cs, Token.gapLength false ('#' :: cs) = Token.gapLength true cs + 1 := fun _ => rfl
    rw [List.cons_append, hstep, List.append_assoc, List.cons_append, gapLength_comment hfeed, ih]
    simp only [List.length_cons, List.length_append]
    omega

/-- A separator adds no token. -/
theorem IsSeparator.block {gap : List Char} (h : IsSeparator gap) : Block gap [] := by
  intro rest ks hrest
  refine ⟨List.forall_mem_append.mpr ⟨h.isSourceChar, hrest.1⟩, fun p => ?_⟩
  have hpass : tokensFrom p (gap ++ rest) = tokensFrom (p.after gap) rest := by
    rw [tokensFrom_eq, tokensFrom_eq, h.gapLength, List.take_length_add_append, List.drop_length_add_append,
      Position.after_append]
  rw [hpass]
  exact hrest.2 _

/-- A phrase is closed by a separator that is not empty. -/
theorem Phrase.separated {a gap : List Char} {ks : List Kind} (h : Phrase a ks) (hgap : IsSeparator gap)
    (hsome : gap ≠ []) : Block (a ++ gap) ks := by
  intro rest js hrest
  rw [List.append_assoc]
  exact h _ _ (hgap.separated fun hnone => absurd hnone hsome) (hgap.block rest js hrest)

/-! ## Writing tokens again -/

/-- The texts of the tokens of a source, but for the end of input. -/
def texts (source : String) (tokens : List Token) : List String :=
  (tokens.filter (·.kind ≠ .endOfInput)).map fun t => slice source t.span.start t.span.stop

/-- Texts in a row with the given separators between them. -/
def spacedOut (separator : Nat → String) : List String → String
  | [] => ""
  | [text] => text
  | text :: next :: rest => text ++ separator 0 ++ spacedOut (fun i => separator (i + 1)) (next :: rest)

/-- Phrases in a row, with separators between them. -/
theorem phrase_spacedOut {separator : Nat → String}
    (hseparator : ∀ i, separator i ≠ "" ∧ IsSeparator (separator i).toList) {α : Type} {text : α → String}
    {kind : α → Kind} {xs : List α} (h : ∀ x ∈ xs, Phrase (text x).toList [kind x]) :
    Phrase (spacedOut separator (xs.map text)).toList (xs.map kind) := by
  induction xs generalizing separator with
  | nil => exact fun _ _ _ hrest => hrest
  | cons x xs ih =>
    have hx := h x List.mem_cons_self
    cases xs with
    | nil => exact hx
    | cons y ys =>
      have hlater := ih (fun i => hseparator (i + 1)) fun z hz => h z (List.mem_cons_of_mem _ hz)
      have hsome : (separator 0).toList ≠ [] := fun hnone => (hseparator 0).1 (String.toList_eq_nil_iff.mp hnone)
      have hblock := hx.separated (hseparator 0).2 hsome
      rw [List.map_cons, List.map_cons, spacedOut, String.toList_append, String.toList_append]
      exact hblock.phrase hlater

/-- **Layout does not matter.** Take a source that is scanned. Its texts, written in order with any separators between
them that are not empty, and perhaps some in front and behind, scan to the same kinds of tokens. -/
theorem respacing_keeps_kinds {source : String} {tokens : List Token} (h : tokenize source = .ok tokens)
    {separator : Nat → String} (hseparator : ∀ i, separator i ≠ "" ∧ IsSeparator (separator i).toList)
    {front back : String} (hfront : IsSeparator front.toList) (hback : IsSeparator back.toList) :
    ∃ tokens', tokenize (front ++ spacedOut separator (texts source tokens) ++ back) = .ok tokens' ∧
      tokens'.map Token.kind = tokens.map Token.kind := by
  obtain ⟨hchars, hfrom⟩ := tokenize_eq_ok.mp h
  have hcovers : Covers [] source.toList tokens := tokensFrom_covers hfrom rfl
  obtain ⟨before, htokens, hbefore⟩ := hcovers.ended
  have hfilter : tokens.filter (·.kind ≠ .endOfInput) = before := by
    rw [htokens, List.filter_append, List.filter_eq_self.mpr fun t ht => decide_eq_true (hbefore t ht)]
    simp
  have hphrase : Phrase (spacedOut separator (texts source tokens)).toList (before.map Token.kind) := by
    rw [texts, hfilter]
    refine phrase_spacedOut hseparator fun t ht => phrase_text h ?_ (hbefore t ht)
    rw [htokens]
    exact List.mem_append_left _ ht
  have hseparated : Separated back.toList := by
    have hnothing : Separated [] := by simp [Separated]
    have := hback.separated fun _ => hnothing
    rwa [List.append_nil] at this
  have hlexes := hfront.block _ _ (hphrase _ _ hseparated hback.block.lexes)
  rw [List.nil_append, List.append_nil] at hlexes
  obtain ⟨tokens', htokens', hkinds⟩ := hlexes.2 .start
  refine ⟨tokens', tokenize_eq_ok.mpr ?_, ?_⟩
  · rw [String.toList_append, String.toList_append, List.append_assoc]
    exact ⟨hlexes.1, htokens'⟩
  · rw [hkinds, htokens, List.map_append]
    rfl

/-- Tokens with nothing between them: names, arrows and a user, a literal and a script with a number sign in them. -/
def crampedText : String := "ab-->@c--->\"#\"|```#```$\x7b0..-1\x7d->end"

/-- A comment, or a carriage return and a tab. -/
def crampedSeparator (i : Nat) : String := if i % 2 = 0 then "#->\"`\n" else "\r\t"

theorem cramped_text_respaced :
    ∃ tokens, tokenize crampedText = .ok tokens ∧
      tokens.map Token.kind = [.identifier "ab-", .arrow, .user "c--", .arrow, .string "#", .bar, .script "#",
        .argument ⟨.slice 0 (some (-1)), "$\x7b0..-1\x7d"⟩, .arrow, .keyword .end_, .endOfInput] ∧
      (∀ i, crampedSeparator i ≠ "" ∧ IsSeparator (crampedSeparator i).toList) ∧
      ∃ tokens', tokenize ("" ++ spacedOut crampedSeparator (texts crampedText tokens) ++ "#\n") = .ok tokens' ∧
        tokens'.map Token.kind = tokens.map Token.kind := by
  have heval : (tokenize crampedText).map (·.map Token.kind) = .ok [.identifier "ab-", .arrow, .user "c--", .arrow,
      .string "#", .bar, .script "#", .argument ⟨.slice 0 (some (-1)), "$\x7b0..-1\x7d"⟩, .arrow, .keyword .end_,
      .endOfInput] := by decide +kernel
  obtain ⟨tokens, htokens, hkinds⟩ := map_eq_ok heval
  have hcomment : ∀ words : List Char, words.all (fun c => isSourceChar c && c ≠ '\n') = true →
      IsSeparator ('#' :: (words ++ ['\n'])) := by
    intro words hwords
    exact .comment (fun c hc => by simpa using List.all_eq_true.mp hwords c hc) .nil
  have hseparator : ∀ i, crampedSeparator i ≠ "" ∧ IsSeparator (crampedSeparator i).toList := by
    intro i
    unfold crampedSeparator
    split
    · exact ⟨by decide, hcomment "->\"`".toList (by decide)⟩
    · exact ⟨by decide, show IsSeparator ['\r', '\t'] from .blank (by simp) (.blank (by simp) .nil)⟩
  exact ⟨tokens, htokens, hkinds, hseparator,
    respacing_keeps_kinds htokens hseparator .nil (hcomment [] rfl)⟩

end AliasLang.Token
