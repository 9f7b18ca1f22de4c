/-
Where walks end. Every list of tokens gives a cursor with an end of input in front of it, and from such a cursor each
production ends, whatever the tokens are, if only its calls may nest deeper than there are tokens left. It ends before
the first end of input or at it, so that no token beyond is looked at, and with as many open blocks as it began with,
also when it fails.
-/
import AliasLang.Proofs.Program.ErrorPlace
import AliasLang.Proofs.Program.Walk
import Mathlib.Data.List.TakeWhile

namespace AliasLang.Program

open Source (Span)
open Token (Kind Keyword)

namespace Cursor

/-! ## Valid cursors -/

/-- There is an end of input, and the cursor has not passed the first one. -/
def Valid (c : Cursor) : Prop := c.pos ≤ c.stop ∧ c.stop < c.tokens.length

instance (c : Cursor) : Decidable c.Valid := inferInstanceAs (Decidable (_ ∧ _))

theorem Stands.valid {c : Cursor} {s : Stream} (h : c.Stands s) : c.Valid :=
  ⟨by rw [← h.pos_add_size]; exact Nat.le_add_right _ _, h.stop_lt⟩

theorem kind_of_mem_take_stop {c : Cursor} {t : Token} (h : t ∈ c.tokens.take c.stop) : t.kind ≠ .endOfInput := by
  obtain ⟨i, hi, rfl⟩ := List.mem_take_iff_getElem.mp h
  have hbefore : i < c.stop := Nat.lt_of_lt_of_le hi (Nat.min_le_left _ _)
  exact of_decide_eq_false (List.not_of_lt_findIdx hbefore)

/-- A valid cursor has a stream in front of it. -/
theorem Valid.stands {c : Cursor} (h : c.Valid) : ∃ s, c.Stands s := by
  obtain ⟨hpos, hstop⟩ := h
  have hend : c.tokens[c.stop] = ⟨.endOfInput, c.tokens[c.stop].span⟩ := by
    have hkind : c.tokens[c.stop].kind = .endOfInput := of_decide_eq_true (List.findIdx_getElem (w := hstop))
    rw [← hkind]
  have hfront : c.tokens.take c.pos ++ (c.tokens.take c.stop).drop c.pos = c.tokens.take c.stop := by
    have hmin : (c.tokens.take c.stop).take c.pos = c.tokens.take c.pos := by
      rw [List.take_take, Nat.min_eq_left hpos]
    rw [← hmin, List.take_append_drop]
  refine ⟨⟨(c.tokens.take c.stop).drop c.pos, c.tokens[c.stop].span, (c.tokens.take c.pos).getLast?.map Token.span⟩,
    c.tokens.take c.pos, ⟨c.tokens.drop (c.stop + 1), ?_⟩, ?_, ?_, rfl⟩
  · rw [← List.append_assoc, hfront, ← hend, ← List.drop_eq_getElem_cons hstop, List.take_append_drop]
  · rw [List.length_take]
    omega
  · intro t ht
    rw [hfront] at ht
    exact kind_of_mem_take_stop ht

/-- A list of tokens has a first end of input, or none. -/
theorem split_at_end (tokens : List Token) : (∀ t ∈ tokens, t.kind ≠ .endOfInput) ∨
    ∃ front span rest, tokens = front ++ ⟨.endOfInput, span⟩ :: rest ∧ ∀ t ∈ front, t.kind ≠ .endOfInput := by
  induction tokens with
  | nil => exact .inl (by simp)
  | cons token tokens ih =>
    by_cases hend : token.kind = .endOfInput
    · refine .inr ⟨[], token.span, tokens, ?_, by simp⟩
      rw [← hend]
      rfl
    · rcases ih with hnone | ⟨front, span, rest, rfl, hfront⟩
      · exact .inl (List.forall_mem_cons.mpr ⟨hend, hnone⟩)
      · exact .inr ⟨token :: front, span, rest, rfl, List.forall_mem_cons.mpr ⟨hend, hfront⟩⟩

theorem depth_ofTokens (tokens : List Token) : (ofTokens tokens).depth = 0 := by
  unfold ofTokens
  split <;> rfl

/-- The cursor for some tokens stands in front of their stream. -/
theorem ofTokens_stands (tokens : List Token) : (ofTokens tokens).Stands (.ofTokens tokens) := by
  rcases split_at_end tokens with hnone | ⟨front, span, rest, rfl, hfront⟩
  · have hlast : ¬ tokens.getLast?.map Token.kind = some .endOfInput := by
      intro h
      obtain ⟨t, ht, hkind⟩ := Option.map_eq_some_iff.mp h
      exact hnone t (List.mem_of_getLast? ht) hkind
    have hstream : Stream.ofTokens tokens = ⟨tokens, (tokens.getLast?.map Token.span).getD .origin, none⟩ := by
      simp only [Stream.ofTokens, List.takeWhile_eq_self_iff.mpr fun t ht => decide_eq_true (hnone t ht)]
      simp
    rw [hstream, ofTokens, if_neg hlast]
    exact ⟨[], ⟨[], rfl⟩, rfl, hnone, rfl⟩
  · rw [stream_ofTokens_end hfront, ofTokens]
    split
    · exact ⟨[], ⟨rest, rfl⟩, rfl, hfront, rfl⟩
    · exact ⟨[], ⟨_, List.append_assoc front _ _⟩, rfl, hfront, rfl⟩

end Cursor

namespace Walk

/-! ## Tokens taken -/

/-- With a value, at least `n` tokens of the stream are taken. -/
def Shrinks {α : Type} (n : Nat) (s : Stream) (r : Except ParseError (α × Stream)) : Prop :=
  ∀ a t, r = .ok (a, t) → t.size + n ≤ s.size

section
variable {α β : Type} {n : Nat} {s : Stream}

theorem shrinks_ok (a : α) (s : Stream) : Shrinks 0 s (.ok (a, s)) := by
  intro b t h
  cases h
  exact Nat.le_refl _

theorem shrinks_error (e : ParseError) : Shrinks n s (.error e : Except ParseError (α × Stream)) :=
  fun _ _ h => nomatch h

theorem shrinks_taking (r : Taking α s) : Shrinks 1 s (Taking.outcome r) := fun _ _ h => Taking.shorter h

theorem shrinks_reading (r : Reading α s) : Shrinks 0 s (Reading.outcome r) := fun _ _ h => Reading.notLonger h

theorem Shrinks.weaken {r : Except ParseError (α × Stream)} (h : Shrinks n s r) : Shrinks 0 s r :=
  fun a t ht => Nat.le_trans (Nat.add_le_add_left (Nat.zero_le n) _) (h a t ht)

theorem Shrinks.bind {r : Except ParseError (α × Stream)} {q : α × Stream → Except ParseError (β × Stream)}
    (hr : Shrinks n s r) (hq : ∀ a t, Shrinks 0 t (q (a, t))) : Shrinks n s (r >>= q) := by
  intro b u h
  obtain ⟨⟨a, t⟩, ha, hb⟩ := bind_eq_ok.mp h
  exact Nat.le_trans (Nat.add_le_add_right (hq a t b u hb) n) (hr a t ha)

end

theorem linksOutcome_shrinks (s : Stream) : Shrinks 1 s (linksOutcome s) := by
  unfold linksOutcome
  dsimp only
  split
  · refine (shrinks_taking _).bind fun word t => ?_
    exact (shrinks_reading _).bind fun link u => shrinks_ok _ u
  · refine (shrinks_taking _).bind fun action t => ?_
    exact (shrinks_reading _).bind fun rest u => shrinks_ok _ u

theorem blockOutcome_shrinks (room : Nat) (s : Stream) : Shrinks 1 s (blockOutcome room s) := by
  unfold blockOutcome
  refine (shrinks_taking _).bind fun get t => (shrinks_taking _).weaken.bind fun compiled u => ?_
  cases room with
  | zero => exact shrinks_error _
  | succ room =>
    refine (shrinks_reading _).bind fun body v => (shrinks_taking _).weaken.bind fun stop x => ?_
    exact (shrinks_reading _).bind fun links y => shrinks_ok _ y

theorem definitionOutcome_shrinks (room : Nat) (span : Span) (s : Stream) :
    Shrinks 1 s (definitionOutcome room span s) := by
  unfold definitionOutcome
  refine (shrinks_taking _).bind fun name t => (shrinks_reading _).bind fun isPrefixed u => ?_
  refine (shrinks_reading _).bind fun keyPrefix v => (shrinks_reading _).bind fun body x => ?_
  exact (shrinks_taking _).weaken.bind fun stop y => shrinks_ok _ y

theorem declarationOutcome_shrinks (room : Nat) (s : Stream) : Shrinks 1 s (declarationOutcome room s) := by
  unfold declarationOutcome
  refine (shrinks_taking _).bind fun word t => ?_
  dsimp only
  split
  · exact (shrinks_taking _).weaken.bind fun name u => shrinks_ok _ u
  · exact (definitionOutcome_shrinks room _ t).weaken

/-! ## Productions -/

/-- From the cursor the walk comes to an end, with a value or an error: not behind the first end of input, with as many
open blocks as before, and in case of a value with at least `n` tokens taken. -/
def EndsFrom {α : Type} (w : Walk α) (n : Nat) (c : Cursor) : Prop :=
  ∃ answer c', runFrom w c = some (answer, c') ∧ c'.tokens = c.tokens ∧ c'.depth = c.depth ∧
    c.pos ≤ c'.pos ∧ c'.pos ≤ c.stop ∧ (answer.isOk = true → c.pos + n ≤ c'.pos)

theorem Mirrors.endsFrom {α : Type} {w : Walk α} {n : Nat} {c : Cursor} {s : Stream}
    {r : Except ParseError (α × Stream)} (hw : Mirrors w c r) (h : c.Stands s) (hn : Shrinks n s r) :
    EndsFrom w n c := by
  have hsum := h.pos_add_size
  cases hw with
  | @error e t c' hruns hstands hreaches =>
    have hsum' := hstands.pos_add_size
    rw [hreaches.stop] at hsum'
    exact ⟨.error e, c', hruns, hreaches.tokens, hreaches.depth, hreaches.pos, by omega, fun hok => nomatch hok⟩
  | @ok a t c' hruns hstands hreaches =>
    have hsum' := hstands.pos_add_size
    rw [hreaches.stop] at hsum'
    have htaken := hn a t rfl
    exact ⟨.ok a, c', hruns, hreaches.tokens, hreaches.depth, hreaches.pos, by omega, fun _ => by omega⟩

/-- Looking at a token, moving by one, and the productions of the grammar, whose calls may nest `calls` deep; with the
number of tokens that each takes at least. -/
inductive IsPart (calls : Nat) : {α : Type} → Walk α → Nat → Prop
  | current : IsPart calls current 0
  | advance : IsPart calls advance 0
  | declaration : IsPart calls (declaration calls) 1
  | definition (span : Span) : IsPart calls (definition calls span) 1
  | body (production : Production) : IsPart calls (body (action calls) production calls) 0
  | action : IsPart calls (action calls) 1
  | block : IsPart calls (block (action calls) calls) 1
  | execute : IsPart calls (execute calls) 1
  | retrieval : IsPart calls retrieval 0
  | continuation : IsPart calls (continuation calls) 0
  | continued : IsPart calls (continued (continuation calls) calls) 1
  | simple (production : Production) : IsPart calls (simple calls production) 1
  | scriptRest (span : Span) : IsPart calls (scriptRest span) 0

theorem advance_endsFrom {c : Cursor} {s : Stream} (h : c.Stands s) : EndsFrom advance 0 c := by
  cases hp : s.pending with
  | nil =>
    have hend : s.current.kind = .endOfInput := by simp [Stream.current, hp]
    have hstays : Mirrors advance c (.ok ((), s)) := by
      unfold advance
      refine .look (runFrom_current h) ?_
      rw [if_pos hend]
      exact .pure h ()
    exact hstays.endsFrom h (shrinks_ok () s)
  | cons token rest =>
    have hmoves : Mirrors advance c (.ok ((), ⟨rest, s.endSpan, some token.span⟩)) :=
      .ok (runFrom_advance h hp) (h.advance hp) ⟨rfl, rfl, Nat.le_succ _⟩
    refine hmoves.endsFrom h fun a t ht => ?_
    cases ht
    simp [Stream.size, hp]

theorem IsPart.endsFrom {calls : Nat} {α : Type} {w : Walk α} {n : Nat} (hw : IsPart calls w n) {c : Cursor}
    (hc : c.Valid) (hcalls : c.stop - c.pos < calls) : EndsFrom w n c := by
  obtain ⟨s, h⟩ := hc.stands
  have hn : s.size < calls := by
    have hsum := h.pos_add_size
    omega
  cases hw with
  | current => exact ⟨_, c, runFrom_current h, rfl, rfl, Nat.le_refl _, hc.1, fun _ => Nat.le_refl _⟩
  | advance => exact advance_endsFrom h
  | declaration => exact (declaration_mirrors hn h).endsFrom h (declarationOutcome_shrinks _ s)
  | definition span => exact (definition_mirrors span hn h).endsFrom h (definitionOutcome_shrinks _ span s)
  | body production =>
    exact (body_mirrors production (action_mirrors calls c.depth) hn hn rfl h).endsFrom h (shrinks_reading _)
  | action => exact (action_mirrors calls c.depth hn rfl h).endsFrom h (shrinks_taking _)
  | block =>
    have hblock := block_mirrors hn (Nat.le_of_lt hn) (action_mirrors calls (c.depth + 1)) h
    exact hblock.endsFrom h (blockOutcome_shrinks _ s)
  | execute => exact (execute_mirrors hn h).endsFrom h (shrinks_taking _)
  | retrieval => exact (retrieval_mirrors h).endsFrom h (shrinks_reading _)
  | continuation => exact (continuation_mirrors hn h).endsFrom h (shrinks_reading _)
  | continued =>
    have hlinks := continued_mirrors hn h fun t c' ht => continuation_mirrors (Nat.lt_trans ht hn)
    exact hlinks.endsFrom h (linksOutcome_shrinks s)
  | simple production => exact (simple_mirrors production hn h).endsFrom h (shrinks_taking _)
  | scriptRest span => exact (scriptRest_mirrors span h).endsFrom h (shrinks_reading _)

/-- The whole program is read as it is from the stream. -/
theorem program_ends (tokens : List Token) {calls : Nat} (hcalls : (Cursor.ofTokens tokens).stop < calls) :
    ∃ c t, runFrom (program calls) (.ofTokens tokens) = some (Program.ofTokens tokens, c) ∧ c.Stands t ∧
      (Cursor.ofTokens tokens).Reaches c := by
  have hstart := Cursor.ofTokens_stands tokens
  have hn : (Stream.ofTokens tokens).size < calls :=
    Nat.lt_of_le_of_lt (by rw [← hstart.pos_add_size]; exact Nat.le_add_left _ _) hcalls
  obtain ⟨c, t, hruns, hstands, hreaches⟩ := declarations_end hn (Cursor.depth_ofTokens tokens) hstart
  refine ⟨c, t, ?_, hstands, hreaches⟩
  unfold program Program.ofTokens
  cases hds : allDeclarations (Stream.ofTokens tokens) with
  | error e =>
    rw [hds] at hruns
    exact runFrom_bind_error hruns
  | ok ds =>
    rw [hds] at hruns
    rw [runFrom_bind_ok hruns]
    rfl

/-- **Parsing ends within the tokens, with all blocks closed.** Calls that may nest deeper than there are tokens left
never run out. For every list of tokens the walk from the start ends with the program that the tokens are or the error
in them. It ends not behind the first end of input, and outside of all blocks. Wherever a cursor stands that has not
passed the first end of input, and whatever number of blocks is open there, every part of the walk ends. It leaves the
cursor not behind the first end of input and the number of open blocks as it was, also on failure; and an action, a step
of a chain or a declaration that succeeds takes a token. -/
theorem walks_end_within_tokens :
    (∀ tokens : List Token, (Cursor.ofTokens tokens).Valid ∧
      ∀ calls, (Cursor.ofTokens tokens).stop < calls →
        ∃ c, runFrom (program calls) (.ofTokens tokens) = some (Program.ofTokens tokens, c) ∧
          c.tokens = (Cursor.ofTokens tokens).tokens ∧ c.pos ≤ (Cursor.ofTokens tokens).stop ∧ c.depth = 0) ∧
    ∀ {calls : Nat} {α : Type} {w : Walk α} {n : Nat}, IsPart calls w n →
      ∀ c : Cursor, c.Valid → c.stop - c.pos < calls → EndsFrom w n c := by
  refine ⟨fun tokens => ⟨(Cursor.ofTokens_stands tokens).valid, fun calls hcalls => ?_⟩,
    fun hw c hc hcalls => hw.endsFrom hc hcalls⟩
  obtain ⟨c, t, hruns, hstands, hreaches⟩ := program_ends tokens hcalls
  refine ⟨c, hruns, hreaches.tokens, ?_, hreaches.depth.trans (Cursor.depth_ofTokens tokens)⟩
  rw [← hreaches.stop]
  exact hstands.valid.1

/-- A block at the last depth, cut off by an end of input behind which tokens follow. -/
theorem cut_block_ends :
    EndsFrom (block (action 3) 3) 1 ⟨[⟨.keyword .get, .origin⟩, ⟨.keyword .compiled, .origin⟩,
      ⟨.endOfInput, .origin⟩, ⟨.keyword .end_, .origin⟩], 0, 63⟩ :=
  walks_end_within_tokens.2 .block _ (by decide) (by decide)

end Walk

end AliasLang.Program
