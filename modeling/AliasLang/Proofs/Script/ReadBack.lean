/-
Reading minified code back. White space goes wherever the characters on its two sides do not call for a space, but the
scanner looks further than that: a number takes in the letters and points that follow it, a punctuator is the longest
one of the table, and a slash is read by the token before it, which may have gone. The tokens that were written are
read again exactly when none of them is caught in one of these ways.
-/
import AliasLang.Proofs.Script.Passes
import AliasLang.Proofs.Script.Scan
import Mathlib.Data.List.Basic

namespace AliasLang.Script

/-- The token `t`, written after the token `last` and right before the text `after`, is not read again: it is taken
for the other kind of slash, or the text goes on with it. -/
def Token.clashes (last : Option Token) (t : Token) (after : List Char) : Bool :=
  match t.text.toList with
  | [] => false
  | c :: cs => misread last t.kind c || runsOn t.kind c cs after

/-- No token clashes with its neighbours when the tokens are written after the token `last`. -/
def standsApart (last : Option Token) : List Token → Bool
  | [] => true
  | t :: ts => !t.clashes last (renderFrom true (some t) ts).toList && standsApart (some t) ts

/-! ## Writing -/

theorem needsSpace_eq {t u : Token} {c d : Char} {cs ds : List Char} (ht : t.text = String.ofList (c :: cs))
    (hu : u.text = String.ofList (d :: ds)) {a : Char} (ha : (c :: cs).getLast? = some a) :
    needsSpace t u = mustPart t.kind a d := by
  simp only [needsSpace, ht, hu, String.toList_ofList, ha, List.head?_cons, mustPart]

/-- A token is written right after the one before it or after a space. -/
theorem renderFrom_cons (last : Option Token) (t : Token) (ts : List Token) :
    ∃ space, (renderFrom true last (t :: ts)).toList =
      space ++ (t.text.toList ++ (renderFrom true (some t) ts).toList) ∧
        (space = [] ∧ (∀ p ∈ last, needsSpace p t = false) ∨ space = [' ']) := by
  cases last with
  | none => exact ⟨[], by simp [renderFrom], .inl ⟨rfl, by simp⟩⟩
  | some p =>
    by_cases hspace : needsSpace p t = true
    · exact ⟨[' '], by simp [renderFrom, separator, hspace], .inr rfl⟩
    · exact ⟨[], by simp [renderFrom, separator, hspace], .inl ⟨rfl, by simpa using hspace⟩⟩

theorem mustPart_space (k : Kind) (a : Char) : mustPart k a ' ' = false := by
  have hspace : isWordPart ' ' = false := by decide
  simp [mustPart, hspace]

theorem renderFrom_parted {t : Token} {c : Char} {cs : List Char} (ht : t.text = String.ofList (c :: cs))
    {ts : List Token} (hts : ∀ u ∈ ts, u.Written) : Parted t.kind c cs (renderFrom true (some t) ts).toList := by
  intro a ha d hd
  cases ts with
  | nil => simp [renderFrom] at hd
  | cons u us =>
    obtain ⟨space, hrender, hspace⟩ := renderFrom_cons (some t) u us
    rw [hrender] at hd
    rcases hspace with ⟨rfl, hno⟩ | rfl
    · obtain ⟨e, es, hu, -, -⟩ := hts u List.mem_cons_self
      obtain rfl : e = d := by simpa [hu] using hd
      rw [← needsSpace_eq ht hu ha]
      exact hno t rfl
    · obtain rfl : ' ' = d := by simpa using hd
      exact mustPart_space t.kind a

/-! ## Reading -/

theorem punctuators_slash : ∀ p ∈ punctuators.map String.toList, p.head? = some '/' →
    p.tail.head? ≠ some '/' ∧ p.tail.head? ≠ some '*' := by decide

/-- No lexeme of a written text is taken for a gap. -/
theorem IsLexeme.startsGap {k : Kind} {c : Char} {cs rest : List Char} (h : IsLexeme k c cs)
    (hblank : Text.isBlank c = false) (hrest : Parted k c cs rest) : startsGap (c :: (cs ++ rest)) = false := by
  by_cases hc : c = '/'
  · subst hc
    have hnext : (cs ++ rest).head? ≠ some '/' ∧ (cs ++ rest).head? ≠ some '*' := by
      cases cs with
      | nil =>
        have hpart : ∀ d ∈ rest.head?, d ≠ '/' ∧ d ≠ '*' := by
          intro d hd
          have := hrest '/' rfl d hd
          simp only [mustPart, Bool.or_eq_false_iff, Bool.and_eq_false_iff, decide_eq_false_iff_not] at this
          simpa using this.2
        exact ⟨fun hhead => (hpart _ hhead).1 rfl, fun hhead => (hpart _ hhead).2 rfl⟩
      | cons d ds =>
        cases h with
        | string hc => simp at hc
        | number hc => simp [startsNumber] at hc
        | word hc => exact absurd rfl (isWordStart_cases hc).2.1
        | regex hc => exact hc
        | punctuator h => exact punctuators_slash _ (mem_table.mpr h) rfl
    simp only [Script.startsGap, hblank, hnext.1, hnext.2, decide_false, Bool.or_self, Bool.and_false]
  · simp [Script.startsGap, hblank, hc]

/-- What is written starts with its first token, and this is read again when it does not clash. -/
theorem scans_renderFrom_cons {last : Option Token} {opened opened' : List Char} {t : Token} {ts : List Token}
    (ht : t.Written) (hts : ∀ u ∈ ts, u.Written) (hopen : openBy opened t = some opened') :
    Scans last opened (renderFrom true last (t :: ts)).toList (t :: ts) ↔
      t.clashes last (renderFrom true (some t) ts).toList = false ∧
        Scans (some t) opened' (renderFrom true (some t) ts).toList ts := by
  obtain ⟨c, cs, htext, hlexeme, hblank⟩ := ht
  have hparted := renderFrom_parted htext hts
  obtain ⟨space, hrender, hspace⟩ := renderFrom_cons last t ts
  rw [hrender, htext, String.toList_ofList, List.cons_append]
  generalize (renderFrom true (some t) ts).toList = after at hparted ⊢
  have hstart := hlexeme.startsGap hblank hparted
  have hgap : gapLength 0 .blank (space ++ c :: (cs ++ after)) = .ok space.length := by
    rcases hspace with ⟨rfl, -⟩ | rfl
    · exact gapLength_eq_zero hstart 0
    · have hblank : Text.isBlank ' ' = true := by decide
      rw [List.singleton_append, gapLength, if_pos hblank, gapLength_eq_zero hstart]
      rfl
  have hdrop : (space ++ c :: (cs ++ after)).drop space.length = c :: (cs ++ after) := List.drop_left
  have hclash : t.clashes last after = false ↔ lexeme last c (cs ++ after) = .ok (t.kind, cs.length) := by
    rw [lexeme_eq_iff last hlexeme hparted, Token.clashes, htext, String.toList_ofList]
    exact Bool.or_eq_false_iff
  rw [hclash]
  constructor
  · intro h
    cases h with
    | @token _ _ _ _ _ _ _ _ n _ hgap' hdrop' hlexeme' htext' hopen' hts' =>
      obtain rfl := Except.ok.inj (hgap.symm.trans hgap')
      obtain ⟨rfl, rfl⟩ := List.cons.inj (hdrop.symm.trans hdrop')
      obtain rfl := Option.some.inj (hopen.symm.trans hopen')
      have hn := (written_of_lexeme hstart hlexeme' htext').1
      -- the same text has the same length
      have htake : cs = (cs ++ after).take n := by
        rw [htext, String.ofList_inj, List.cons.injEq] at htext'
        exact htext'.2
      obtain rfl : n = cs.length := by
        have := congrArg List.length htake
        rw [List.length_take] at this
        omega
      rw [List.drop_left] at hts'
      exact ⟨hlexeme', hts'⟩
  · rintro ⟨hread, hscans⟩
    exact .token hgap hdrop hread (by simp [htext]) hopen (by simpa using hscans)

theorem scans_renderFrom_iff {ts : List Token} (hts : ∀ t ∈ ts, t.Written) (last : Option Token) (opened : List Char)
    (hopen : openAfter opened ts = some []) :
    Scans last opened (renderFrom true last ts).toList ts ↔ standsApart last ts = true := by
  induction ts generalizing last opened with
  | nil =>
    obtain rfl : opened = [] := by simpa [openAfter] using hopen
    simp only [standsApart, iff_true]
    exact .done (gapLength_eq_zero rfl 0) rfl
  | cons t ts ih =>
    rw [openAfter, Option.bind_eq_some_iff] at hopen
    obtain ⟨opened', hopened', hafter⟩ := hopen
    rw [List.forall_mem_cons] at hts
    rw [scans_renderFrom_cons hts.1 hts.2 hopened', ih hts.2 _ _ hafter, standsApart, Bool.and_eq_true,
      Bool.not_eq_true']

/-- **When minified code is read back.** It is read as the tokens that were kept if and only if none of them clashes with
what is written behind it. -/
theorem minified_reads_back_iff {options : Options} {script : String} {ts : List Token}
    (hspace : options.minifyWhitespace = true) (h : tokenize script = .ok ts) :
    (∃ again, tokenize (minify options script).code = .ok again ∧
        again.map Token.lexed = (shorten options ts).map Token.lexed) ↔
      standsApart none (shorten options ts) = true := by
  have hscans : Scans none [] script.toList ts := scans_of_tokensFrom h
  have hwritten : ∀ t ∈ shorten options ts, t.Written :=
    (shorten_edited options ts).forall_mem (fun _ => written_semicolon) hscans.written
  have hnested : Nested (shorten options ts) := (shorten_edited options ts).nested hscans.openAfter
  rw [tokenize_iff_scans, minify, h]
  dsimp only
  rw [hspace, render]
  exact scans_renderFrom_iff hwritten none [] hnested

/-- A script with a console call, two signs in a row, a hexadecimal number that ends with `e`, and both kinds of
slash. -/
def signedScript : String := "console.log(x)\nreturn 0xe - -x + /a b/g / 2"

/-- What is left of it. -/
def signedTokens : List Token :=
  [⟨.word, "return", ⟨15, 1, 0⟩, true, false⟩, ⟨.number, "0xe", ⟨22, 1, 7⟩, false, false⟩,
   ⟨.punctuator, "-", ⟨26, 1, 11⟩, false, false⟩, ⟨.punctuator, "-", ⟨28, 1, 13⟩, false, false⟩,
   ⟨.word, "x", ⟨29, 1, 14⟩, false, false⟩, ⟨.punctuator, "+", ⟨31, 1, 16⟩, false, false⟩,
   ⟨.regex, "/a b/g", ⟨33, 1, 18⟩, false, false⟩, ⟨.punctuator, "/", ⟨40, 1, 25⟩, false, false⟩,
   ⟨.number, "2", ⟨42, 1, 27⟩, false, false⟩]

theorem signed_script_reads_back :
    (Options.forEmbedding true).minifyWhitespace = true ∧ ∃ ts, tokenize signedScript = .ok ts ∧
      standsApart none (shorten (.forEmbedding true) ts) = true ∧
      ∃ again, tokenize (minify (.forEmbedding true) signedScript).code = .ok again ∧
        again.map Token.lexed = (shorten (.forEmbedding true) ts).map Token.lexed := by
  have heval : (tokenize signedScript).map (shorten (.forEmbedding true)) = .ok signedTokens := by decide +kernel
  obtain ⟨ts, hts, hshort⟩ := AliasLang.Token.map_eq_ok heval
  have hapart : standsApart none (shorten (.forEmbedding true) ts) = true := by
    rw [hshort]
    decide +kernel
  exact ⟨rfl, ts, hts, hapart, (minified_reads_back_iff rfl hts).mpr hapart⟩

/-- Without the space the number takes in the word after it: of four tokens three are left. -/
theorem number_takes_in_word :
    (tokenize "return 1. in x").map (fun ts => (shorten (.forEmbedding true) ts).map Token.lexed) =
        .ok [(.word, "return"), (.number, "1."), (.word, "in"), (.word, "x")] ∧
      (minify (.forEmbedding true) "return 1. in x").code = "return 1.in x" ∧
      (tokenize "return 1.in x").map (·.map Token.lexed) =
        .ok [(.word, "return"), (.number, "1.in"), (.word, "x")] := by
  refine ⟨by decide +kernel, by decide +kernel, by decide +kernel⟩

end AliasLang.Script
