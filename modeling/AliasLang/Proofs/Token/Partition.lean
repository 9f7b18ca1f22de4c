/-
Tokens and gaps make up the source. Between two tokens stands nothing but white space and comments, each token has
the place where its text stands, and its text scans to that token again. A source that is refused is refused at a
place of its own.

The scanner is followed once, by `Covers`, and everything else is read off the pieces that it lays side by side.
-/
import AliasLang.Proofs.Script.Remap
import AliasLang.Proofs.Token.Scan
import Mathlib.Data.List.Induction

namespace AliasLang

namespace Source

/-! ## Texts by byte offsets -/

/-- The characters of a text that end at byte `n` or before. -/
def upTo (n : Nat) : List Char → List Char
  | [] => []
  | c :: cs => if n < c.utf8Size then [] else c :: upTo (n - c.utf8Size) cs

/-- The text from byte `start` to byte `stop`. -/
def slice (source : String) (start stop : Nat) : String :=
  String.ofList ((upTo stop source.toList).drop (upTo start source.toList).length)

/-- The text from byte `start` on. -/
def sliceFrom (source : String) (start : Nat) : String :=
  String.ofList (source.toList.drop (upTo start source.toList).length)

/-- The line of a byte, from one: one more than the line feeds before it. -/
def lineOf (source : String) (offset : Nat) : Nat :=
  (upTo offset source.toList).count '\n' + 1

/-- The column of a byte, from one: one more than the characters before it on its line. -/
def columnOf (source : String) (offset : Nat) : Nat :=
  ((upTo offset source.toList).reverse.takeWhile (· ≠ '\n')).length + 1

/-- A span starts between characters of the source or at its end, and its line and column are those of its start. -/
structure Span.Placed (source : String) (s : Span) : Prop where
  boundary : Script.byteLength (upTo s.start source.toList) = s.start
  line : s.line = lineOf source s.start
  column : s.column = columnOf source s.start

theorem upTo_byteLength (a b : List Char) : upTo (Script.byteLength a) (a ++ b) = a := by
  induction a with
  | nil =>
    cases b with
    | nil => rfl
    | cons c b => simp [upTo, Script.byteLength, c.utf8Size_pos]
  | cons c a ih =>
    have hfit : ¬Script.byteLength (c :: a) < c.utf8Size := by
      rw [Script.byteLength]
      omega
    have hrest : Script.byteLength (c :: a) - c.utf8Size = Script.byteLength a := by
      rw [Script.byteLength]
      omega
    rw [List.cons_append, upTo, if_neg hfit, hrest, ih]

theorem byteLength_ofList (cs : List Char) : Script.byteLength cs = (String.ofList cs).utf8ByteSize := by
  induction cs with
  | nil => rfl
  | cons c cs ih =>
    have hcons : String.ofList (c :: cs) = String.singleton c ++ String.ofList cs := by
      rw [String.singleton_eq_ofList, ← String.ofList_append]
      rfl
    rw [Script.byteLength, ih, hcons, String.utf8ByteSize_append, String.utf8ByteSize_singleton]

theorem byteLength_toList (s : String) : Script.byteLength s.toList = s.utf8ByteSize := by
  rw [byteLength_ofList, String.ofList_toList]

/-- A position counts the bytes in front of it. -/
theorem Position.offset_start_after (cs : List Char) : (Position.start.after cs).offset = Script.byteLength cs := by
  rw [Position.after_offset]
  exact Nat.zero_add _

theorem Position.column_start_after (cs : List Char) :
    (Position.start.after cs).column = (cs.reverse.takeWhile (· ≠ '\n')).length := by
  induction cs using List.reverseRecOn with
  | nil => rfl
  | append_singleton cs c ih =>
    rw [Position.after_append, Position.after_cons, Position.after_nil, Position.next, List.reverse_append]
    by_cases hc : c = '\n'
    · simp [hc]
    · simp [hc, ih]

section
variable {source : String} {before text after : List Char} (h : source.toList = before ++ (text ++ after))
include h

theorem upTo_start : upTo (Position.start.after before).offset source.toList = before := by
  rw [h, Position.offset_start_after, upTo_byteLength]

theorem upTo_stop : upTo (Position.start.after (before ++ text)).offset source.toList = before ++ text := by
  rw [h, ← List.append_assoc, Position.offset_start_after, upTo_byteLength]

theorem slice_between : slice source (Position.start.after before).offset (Position.start.after (before ++ text)).offset
    = String.ofList text := by
  rw [slice, upTo_start h, upTo_stop h, List.drop_left]

theorem sliceFrom_stop : sliceFrom source (Position.start.after (before ++ text)).offset = String.ofList after := by
  rw [sliceFrom, upTo_stop h, h, ← List.append_assoc, List.drop_left]

/-- A position that has counted its way to a place knows line and column of that place. -/
theorem placed_between (q : Position) : (Span.between (Position.start.after before) q).Placed source := by
  have hstart : upTo (Span.between (Position.start.after before) q).start source.toList = before := upTo_start h
  refine ⟨?_, ?_, ?_⟩
  · rw [hstart]
    exact (Position.offset_start_after before).symm
  · rw [lineOf, hstart]
    show (Position.start.after before).line + 1 = _
    rw [Position.after_line]
    simp [Position.start]
  · rw [columnOf, hstart, ← Position.column_start_after]
    rfl

end

end Source

namespace Token

open Source

/-! ## Gaps -/

/-- White space and comments in front of the text `after`: blanks, tabs, carriage returns and line feeds, and comments
that start with `#` and run to a line feed or to the end of the source. -/
inductive IsGap (after : List Char) : List Char → Prop
  | nil : IsGap after []
  | blank {c : Char} {gap : List Char} (hc : c = ' ' ∨ c = '\t' ∨ c = '\r' ∨ c = '\n') (hgap : IsGap after gap) :
      IsGap after (c :: gap)
  | comment {words gap : List Char} (hwords : '\n' ∉ words) (hend : ∀ c ∈ (gap ++ after).head?, c = '\n')
      (hgap : IsGap after gap) : IsGap after ('#' :: (words ++ gap))

/-- Inside a comment, the gap goes on with the rest of the comment. -/
theorem gapLength_isGap (cs : List Char) :
    IsGap (cs.drop (gapLength false cs)) (cs.take (gapLength false cs)) ∧
      IsGap (cs.drop (gapLength true cs)) ('#' :: cs.take (gapLength true cs)) := by
  induction cs with
  | nil => exact ⟨.nil, @IsGap.comment [] [] [] (by simp) (by simp) .nil⟩
  | cons c cs ih =>
    obtain ⟨ihBlank, ihComment⟩ := ih
    by_cases hfeed : c = '\n'
    · -- a line feed ends the comment and is a blank itself
      subst hfeed
      have hrest : IsGap (cs.drop (gapLength false cs)) ('\n' :: cs.take (gapLength false cs)) :=
        .blank (.inr (.inr (.inr rfl))) ihBlank
      refine ⟨?_, ?_⟩
      · simpa [gapLength] using hrest
      · have hcomment := @IsGap.comment _ [] _ (by simp) (by simp) hrest
        simpa [gapLength] using hcomment
    · have hcomment : IsGap ((c :: cs).drop (gapLength true (c :: cs)))
          ('#' :: (c :: cs).take (gapLength true (c :: cs))) := by
        have hlength : gapLength true (c :: cs) = gapLength true cs + 1 := by simp [gapLength, hfeed]
        rw [hlength, List.drop_succ_cons, List.take_succ_cons]
        generalize cs.take (gapLength true cs) = taken at ihComment ⊢
        generalize htail : cs.drop (gapLength true cs) = tail at ihComment ⊢
        cases ihComment with
        | blank hc => simp at hc
        | @comment words gap hwords hend hgap =>
          have hwords' : '\n' ∉ c :: words := by
            simp only [List.mem_cons, not_or]
            exact ⟨fun h => hfeed h.symm, hwords⟩
          exact .comment hwords' hend hgap
      refine ⟨?_, hcomment⟩
      by_cases hhash : c = '#'
      · subst hhash
        have hlength : gapLength false ('#' :: cs) = gapLength true cs + 1 := by simp [gapLength]
        rw [hlength, List.drop_succ_cons, List.take_succ_cons]
        exact ihComment
      by_cases hblank : c = ' ' ∨ c = '\t' ∨ c = '\r'
      · have hlength : gapLength false (c :: cs) = gapLength false cs + 1 := by
          simp [gapLength, hfeed, hhash, hblank, or_assoc]
        rw [hlength, List.drop_succ_cons, List.take_succ_cons]
        exact .blank (by tauto) ihBlank
      · have hlength : gapLength false (c :: cs) = 0 := by
          simp [gapLength, hfeed, hhash, hblank, or_assoc]
        rw [hlength]
        exact .nil

/-! ## The pieces of a source -/

/-- The text `cs`, which `before` precedes, is gaps and the lexemes of these tokens, each with its place; the last token
is the end of input. -/
inductive Covers : (before cs : List Char) → List Token → Prop
  | done {before gap : List Char} (hgap : IsGap [] gap) :
      Covers before gap [⟨.endOfInput, .point (Position.start.after (before ++ gap))⟩]
  | token {before gap text rest : List Char} {c : Char} {k : Kind} {tokens : List Token}
      (hgap : IsGap (c :: (text ++ rest)) gap) (hlex : lexeme c (text ++ rest) = .ok (k, text.length))
      (hrest : Covers (before ++ gap ++ c :: text) rest tokens) :
      Covers before (gap ++ c :: (text ++ rest))
        (⟨k, .between (Position.start.after (before ++ gap)) (Position.start.after (before ++ gap ++ c :: text))⟩ ::
          tokens)

theorem tokensFrom_covers {p : Position} {cs : List Char} {tokens : List Token} (h : tokensFrom p cs = .ok tokens)
    {before : List Char} (hp : p = Position.start.after before) : Covers before cs tokens := by
  fun_induction tokensFrom p cs generalizing tokens before with
  | case1 p cs gap q =>
    rename_i hdrop
    cases h
    have hgap : IsGap (cs.drop gap) (cs.take gap) := (gapLength_isGap cs).1
    have hcs : cs.take gap = cs := List.take_of_length_le (List.drop_eq_nil_iff.mp hdrop)
    have hq : q = Position.start.after (before ++ cs) := by rw [Position.after_append, ← hp, ← hcs]
    rw [hdrop, hcs] at hgap
    rw [hq]
    exact .done hgap
  | case2 => cases h
  | case3 => cases h
  | case4 p cs gap q c rest =>
    rename_i hdrop k n hlex q' tokens' hrest ih
    cases h
    have hgap : IsGap (cs.drop gap) (cs.take gap) := (gapLength_isGap cs).1
    have hlength : (rest.take n).length = n := List.length_take_of_le (lexeme_stands hlex).length_le
    have hsplit : cs.take gap ++ c :: (rest.take n ++ rest.drop n) = cs := by
      rw [List.take_append_drop, ← hdrop, List.take_append_drop]
    have hq : q = Position.start.after (before ++ cs.take gap) := by rw [Position.after_append, ← hp]
    have hq' : q' = Position.start.after (before ++ cs.take gap ++ c :: rest.take n) := by
      rw [Position.after_append, ← hq]
    have hcovers : Covers before (cs.take gap ++ c :: (rest.take n ++ rest.drop n))
        (⟨k, .between q q'⟩ :: tokens') := by
      rw [hq, hq']
      refine .token ?_ ?_ (ih hrest hq')
      · rwa [List.take_append_drop, ← hdrop]
      · rwa [List.take_append_drop, hlength]
    rwa [hsplit] at hcovers

/-! ## What follows for the tokens -/

/-- The text of a token: a lexeme of its kind, or nothing at the end of the source. -/
def IsTextOf (t : Token) (text after : List Char) : Prop :=
  (t.kind = .endOfInput ∧ text = [] ∧ after = []) ∨
    ∃ c cs, text = c :: cs ∧ lexeme c (cs ++ after) = .ok (t.kind, cs.length)

/-- Each token spans a text of its own. -/
theorem Covers.stretch {before cs : List Char} {tokens : List Token} (h : Covers before cs tokens) :
    ∀ t ∈ tokens, ∃ front text after, cs = front ++ (text ++ after) ∧ IsTextOf t text after ∧
      t.span = .between (Position.start.after (before ++ front)) (Position.start.after (before ++ front ++ text)) := by
  induction h with
  | @done before gap hgap =>
    intro t ht
    simp only [List.mem_singleton] at ht
    subst ht
    exact ⟨gap, [], [], by simp, .inl ⟨rfl, rfl, rfl⟩, by simp [Span.point]⟩
  | @token before gap text rest c k tokens hgap hlex hrest ih =>
    intro t ht
    simp only [List.mem_cons] at ht
    rcases ht with rfl | ht
    · exact ⟨gap, c :: text, rest, rfl, .inr ⟨c, text, rfl, hlex⟩, rfl⟩
    · obtain ⟨front, text', after, rfl, htext, hspan⟩ := ih t ht
      refine ⟨gap ++ c :: text ++ front, text', after, by simp, htext, ?_⟩
      rw [hspan]
      simp only [List.append_assoc]

theorem Covers.ordered {before cs : List Char} {tokens : List Token} (h : Covers before cs tokens) :
    tokens.Pairwise fun a b => a.span.start < b.span.start ∧ a.span.stop ≤ b.span.start := by
  induction h with
  | done => exact List.pairwise_singleton _ _
  | @token before gap text rest c k tokens hgap hlex hrest ih =>
    refine List.pairwise_cons.mpr ⟨fun t ht => ?_, ih⟩
    obtain ⟨front, text', after, -, -, hspan⟩ := hrest.stretch t ht
    have hstart : t.span.start = Script.byteLength (before ++ gap ++ c :: text ++ front) := by
      rw [hspan]
      exact Position.offset_start_after _
    have hpos : 0 < c.utf8Size := c.utf8Size_pos
    show (Position.start.after (before ++ gap)).offset < _ ∧
      (Position.start.after (before ++ gap ++ c :: text)).offset ≤ _
    rw [hstart, Position.offset_start_after, Position.offset_start_after, Script.byteLength_append _ front,
      Script.byteLength_append _ (c :: text), Script.byteLength]
    omega

/-- The gap in front of a token starts where the token before it stops. -/
theorem Covers.gaps {source : String} {before cs : List Char} {tokens : List Token} (h : Covers before cs tokens)
    (hsource : source.toList = before ++ cs) {front back : List Token} {t : Token} (ht : tokens = front ++ t :: back) :
    IsGap (sliceFrom source t.span.start).toList
      (slice source ((front.getLast?.map (·.span.stop)).getD (Position.start.after before).offset)
        t.span.start).toList := by
  induction h generalizing front with
  | @done before gap hgap =>
    obtain ⟨rfl, rfl, rfl⟩ : front = [] ∧ _ = t ∧ [] = back := by
      cases front with
      | nil => simpa using ht
      | cons u front => simp at ht
    have hsource' : source.toList = before ++ (gap ++ []) := by rw [hsource, List.append_nil]
    show IsGap (sliceFrom source (Position.start.after (before ++ gap)).offset).toList
      (slice source (Position.start.after before).offset (Position.start.after (before ++ gap)).offset).toList
    rw [sliceFrom_stop hsource', slice_between hsource', String.toList_ofList, String.toList_ofList]
    exact hgap
  | @token before gap text rest c k tokens hgap hlex hrest ih =>
    cases front with
    | nil =>
      obtain ⟨rfl, rfl⟩ := List.cons.inj ht
      show IsGap (sliceFrom source (Position.start.after (before ++ gap)).offset).toList
        (slice source (Position.start.after before).offset (Position.start.after (before ++ gap)).offset).toList
      rw [sliceFrom_stop hsource, slice_between hsource, String.toList_ofList, String.toList_ofList]
      exact hgap
    | cons u front =>
      obtain ⟨rfl, hrest'⟩ := List.cons.inj ht
      have hsource' : source.toList = before ++ gap ++ c :: text ++ rest := by
        rw [hsource]
        simp
      have hgaps := ih hsource' hrest'
      rw [List.getLast?_cons, Option.map_some, Option.getD_some]
      cases hlast : front.getLast? with
      | none =>
        rw [hlast] at hgaps
        exact hgaps
      | some v =>
        rw [hlast] at hgaps
        exact hgaps

/-! ## Names are as long as they can be -/

/-- Tokens that end with a run of name characters. -/
def Kind.isName : Kind → Bool
  | .keyword _ | .identifier _ | .user _ => true
  | _ => false

theorem lexeme_isName {c : Char} {cs : List Char} {k : Kind} {n : Nat} (h : lexeme c cs = .ok (k, n))
    (hk : k.isName = true) : n = nameLength cs := by
  unfold lexeme at h
  split at h
  · cases h
    cases hk
  split at h
  · cases h
    cases hk
  split at h
  · unfold stringLexeme at h
    split at h
    · cases h
    split at h <;> cases h
    cases hk
  split at h
  · simp only [userLexeme] at h
    split at h <;> cases h
    rfl
  split at h
  · simp only [argumentLexeme] at h
    split at h
    · cases h
    split at h
    · cases h
    split at h <;> cases h
    cases hk
  split at h
  · unfold scriptLexeme at h
    split at h
    · split at h <;> cases h
      cases hk
    · cases h
  split at h
  · dsimp only at h
    split at h <;> cases h
    rfl
  · cases h

/-- A run of name characters goes on to the next other character, or to an arrow. -/
theorem nameLength_longest (cs : List Char) : ∀ c ∈ (cs.drop (nameLength cs)).head?, isNameChar c = true →
    (cs.drop (nameLength cs)).take 2 = ['-', '>'] := by
  induction cs with
  | nil => simp [nameLength]
  | cons d cs ih =>
    by_cases hd : (isNameChar d && !(d = '-' && cs.head? = some '>')) = true
    · have hlength : nameLength (d :: cs) = nameLength cs + 1 := by rw [nameLength, if_pos hd]
      rw [hlength, List.drop_succ_cons]
      exact ih
    · have hlength : nameLength (d :: cs) = 0 := by rw [nameLength, if_neg hd]
      rw [hlength, List.drop_zero]
      intro c hc hname
      obtain rfl : d = c := by simpa using hc
      simp only [hname, Bool.true_and, Bool.not_eq_true', Bool.not_eq_false, Bool.and_eq_true, decide_eq_true_eq] at hd
      obtain ⟨rfl, hhead⟩ := hd
      obtain ⟨tail, rfl⟩ := List.head?_eq_some_iff.mp hhead
      rfl

/-! ## Sources that are scanned -/

/-- The tokens of a source lie in it side by side, and nothing is lost between them. -/
structure Partitions (source : String) (tokens : List Token) : Prop where
  bounded : ∀ t ∈ tokens, t.span.start ≤ t.span.stop ∧ t.span.stop ≤ source.utf8ByteSize
  ordered : tokens.Pairwise fun a b => a.span.start < b.span.start ∧ a.span.stop ≤ b.span.start
  /-- From the end of the token before, or from the start of the source, to a token. -/
  gaps : ∀ front t back, tokens = front ++ t :: back →
    IsGap (sliceFrom source t.span.start).toList
      (slice source ((front.getLast?.map (·.span.stop)).getD 0) t.span.start).toList
  ended : ∃ front span, tokens = front ++ [⟨.endOfInput, span⟩] ∧ (∀ t ∈ front, t.kind ≠ .endOfInput) ∧
    span.start = source.utf8ByteSize ∧ span.stop = source.utf8ByteSize
  placed : ∀ t ∈ tokens, t.span.Placed source
  alone : ∀ t ∈ tokens, t.kind ≠ .endOfInput →
    (tokenize (slice source t.span.start t.span.stop)).map (·.map Token.kind) = .ok [t.kind, .endOfInput]
  longest : ∀ t ∈ tokens, t.kind.isName = true →
    ∀ c ∈ (sliceFrom source t.span.stop).toList.head?, isNameChar c = true →
      (sliceFrom source t.span.stop).toList.take 2 = ['-', '>']

theorem Covers.ended {before cs : List Char} {tokens : List Token} (h : Covers before cs tokens) :
    ∃ front, tokens = front ++ [⟨.endOfInput, .point (Position.start.after (before ++ cs))⟩] ∧
      ∀ t ∈ front, t.kind ≠ .endOfInput := by
  induction h with
  | done => exact ⟨[], rfl, by simp⟩
  | @token before gap text rest c k tokens hgap hlex hrest ih =>
    obtain ⟨front, rfl, hfront⟩ := ih
    have hend : k ≠ .endOfInput := (lexeme_stands hlex).notEnd
    have hsame : before ++ gap ++ c :: text ++ rest = before ++ (gap ++ c :: (text ++ rest)) := by simp
    rw [hsame]
    exact ⟨_ :: front, rfl, by simpa [hend] using hfront⟩

/-- The text of a token is a phrase. -/
theorem phrase_text {source : String} {tokens : List Token} (h : tokenize source = .ok tokens) {t : Token}
    (ht : t ∈ tokens) (hend : t.kind ≠ .endOfInput) :
    Phrase (slice source t.span.start t.span.stop).toList [t.kind] := by
  obtain ⟨hchars, hfrom⟩ := tokenize_eq_ok.mp h
  have hcovers : Covers [] source.toList tokens := tokensFrom_covers hfrom rfl
  obtain ⟨front, text, after, hsource, htext, hspan⟩ := hcovers.stretch t ht
  rcases htext with ⟨hend', -⟩ | ⟨c, cs, rfl, hlex⟩
  · exact absurd hend' hend
  have hslice : slice source t.span.start t.span.stop = String.ofList (c :: cs) := by
    rw [hspan]
    exact slice_between hsource
  rw [hslice, String.toList_ofList]
  refine phrase_of_lexeme (fun d hd => hchars d ?_) fun rest hrest => ?_
  · rw [hsource]
    exact List.mem_append_right _ (List.mem_append_left _ hd)
  · have hagain := (lexeme_stands hlex).again rest hrest
    rwa [List.take_left] at hagain

/-- A phrase scans to its tokens when it stands alone. -/
theorem Phrase.alone {source : String} {ks : List Kind} (h : Phrase source.toList ks) :
    (tokenize source).map (·.map Token.kind) = .ok (ks ++ [.endOfInput]) := by
  have hlexes := h [] [] (by simp [Separated]) lexes_nil
  rw [List.append_nil, List.append_nil] at hlexes
  obtain ⟨tokens, htokens, hkinds⟩ := hlexes.2 .start
  rw [tokenize_eq_ok.mpr ⟨hlexes.1, htokens⟩]
  exact congrArg Except.ok hkinds

theorem partitions_of_tokenize {source : String} {tokens : List Token} (h : tokenize source = .ok tokens) :
    Partitions source tokens := by
  obtain ⟨hchars, hfrom⟩ := tokenize_eq_ok.mp h
  have hcovers : Covers [] source.toList tokens := tokensFrom_covers hfrom rfl
  have hstretch := hcovers.stretch
  refine ⟨fun t ht => ?_, hcovers.ordered, fun front t back ht => hcovers.gaps rfl ht, ?_, fun t ht => ?_,
    fun t ht hend => (phrase_text h ht hend).alone, fun t ht hname => ?_⟩
  · obtain ⟨front, text, after, hsource, -, hspan⟩ := hstretch t ht
    have hsize := byteLength_toList source
    rw [hsource, Script.byteLength_append, Script.byteLength_append] at hsize
    rw [hspan]
    show (Position.start.after front).offset ≤ (Position.start.after (front ++ text)).offset ∧
      (Position.start.after (front ++ text)).offset ≤ _
    rw [Position.offset_start_after, Position.offset_start_after, Script.byteLength_append]
    omega
  · obtain ⟨front, hfront, hend⟩ := hcovers.ended
    have hsize : (Position.start.after source.toList).offset = source.utf8ByteSize := by
      rw [Position.offset_start_after, byteLength_toList]
    exact ⟨front, _, hfront, hend, hsize, hsize⟩
  · obtain ⟨front, text, after, hsource, -, hspan⟩ := hstretch t ht
    rw [hspan]
    exact placed_between hsource _
  · obtain ⟨front, text, after, hsource, htext, hspan⟩ := hstretch t ht
    rcases htext with ⟨hend', -⟩ | ⟨c, cs, rfl, hlex⟩
    · rw [hend'] at hname
      cases hname
    have hlength := lexeme_isName hlex hname
    have hlongest := nameLength_longest (cs ++ after)
    rw [← hlength, List.drop_left] at hlongest
    rw [hspan]
    show ∀ d ∈ (sliceFrom source (Position.start.after (front ++ c :: cs)).offset).toList.head?, _ →
      (sliceFrom source (Position.start.after (front ++ c :: cs)).offset).toList.take 2 = _
    rw [sliceFrom_stop hsource, String.toList_ofList]
    exact hlongest

/-! ## Sources that are refused -/

theorem Fault.locate_placed {source : String} {before cs : List Char} (hsource : source.toList = before ++ cs)
    (f : Fault) : (f.locate (Position.start.after before) cs).span.Placed source := by
  have hsplit : source.toList = before ++ cs.take f.skipped ++ (cs.drop f.skipped ++ []) := by
    rw [hsource, List.append_nil, List.append_assoc, List.take_append_drop]
  show (Span.between ((Position.start.after before).after (cs.take f.skipped)) _).Placed source
  rw [← Position.after_append]
  exact placed_between hsplit _

theorem tokensFrom_error_placed {source : String} {p : Position} {cs : List Char} {e : LexError}
    (h : tokensFrom p cs = .error e) {before : List Char} (hp : p = Position.start.after before)
    (hsource : source.toList = before ++ cs) : e.span.Placed source := by
  fun_induction tokensFrom p cs generalizing before with
  | case1 => cases h
  | case2 p cs gap q c rest =>
    rename_i hdrop f hlex
    cases h
    have hq : q = Position.start.after (before ++ cs.take gap) := by rw [Position.after_append, ← hp]
    rw [hq]
    refine Fault.locate_placed ?_ f
    rw [hsource, ← hdrop, List.append_assoc, List.take_append_drop]
  | case3 p cs gap q c rest =>
    rename_i hdrop k n hlex q' e' hrest ih
    cases h
    have hq' : q' = Position.start.after (before ++ cs.take gap ++ c :: rest.take n) := by
      rw [Position.after_append, Position.after_append, ← hp]
    refine ih hrest hq' ?_
    have hsplit : cs.take gap ++ c :: (rest.take n ++ rest.drop n) = cs := by
      rw [List.take_append_drop, ← hdrop, List.take_append_drop]
    rw [hsource]
    nth_rewrite 1 [← hsplit]
    simp only [List.append_assoc, List.cons_append]
  | case4 => cases h

/-- **The scanner loses nothing and knows its places.** The tokens of a source that is scanned lie in it in order and
apart from each other. In front of each of them stand white space and comments only, and the last one alone is the end
of input, at the end of the source. Line and column of a token are those of its first byte, its text alone scans to
that token, and a name goes on as far as it can. A source that is refused is refused with the line and column of the
first byte that the error names. -/
theorem tokenize_partitions (source : String) :
    match tokenize source with
    | .ok tokens => Partitions source tokens
    | .error e => e.span.Placed source := by
  cases h : tokenize source with
  | ok tokens => exact partitions_of_tokenize h
  | error e =>
    unfold tokenize at h
    dsimp only at h
    split at h
    · cases h
      exact Fault.locate_placed (List.nil_append _).symm _
    · exact tokensFrom_error_placed h rfl (List.nil_append _).symm

end Token

end AliasLang
