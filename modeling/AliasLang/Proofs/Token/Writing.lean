/-
Which scripts can be written between fences. A backslash is put before each backtick of the script, and what is handed
on has it taken away again, whatever else the script holds. But the text between the fences is read in pairs that start
with a backslash, so a backslash that the script has before a backtick, or at its end, is paired with the backslash or
the fence that follows. A script survives if and only if its backslashes in such places come in pairs themselves, and a
script that does not survive has no other spelling.
-/
import AliasLang.Proofs.Command.Quoting
import AliasLang.Proofs.Script.Remap
import AliasLang.Proofs.Token.Scan

namespace AliasLang.Token

open Command.Quoting (backslashes backslashes_concat)
open Program (Fenced unescapeBackticks)
open Script (lexeme_script unescapeBackticks_escaped unescapeBackticks_plain written)
open Source (Position)

/-- A script with a backslash before each of its backticks, between fences. -/
def fenced (script : String) : String := String.ofList (fence ++ (script.toList.flatMap written ++ fence))

/-- Wherever `cs` ends or has a backtick, an even number of backslashes stands right before, those at the end of the
text in front included. -/
def PairedAfter (before cs : List Char) : Prop :=
  ∀ n ≤ cs.length, cs[n]? = none ∨ cs[n]? = some '`' → Even (backslashes (before ++ cs.take n))

/-- Wherever the script ends or has a backtick, an even number of backslashes stands right before. -/
def Paired (cs : List Char) : Prop := PairedAfter [] cs

instance (cs : List Char) : Decidable (Paired cs) :=
  inferInstanceAs <| Decidable <|
    ∀ n ≤ cs.length, cs[n]? = none ∨ cs[n]? = some '`' → Even (backslashes ([] ++ cs.take n))

/-! ## Backslashes in pairs -/

theorem pairedAfter_nil {before : List Char} : PairedAfter before [] ↔ Even (backslashes before) := by
  simp [PairedAfter]

theorem pairedAfter_cons {before : List Char} {c : Char} {cs : List Char} :
    PairedAfter before (c :: cs) ↔ (c = '`' → Even (backslashes before)) ∧ PairedAfter (before ++ [c]) cs := by
  constructor
  · intro h
    refine ⟨fun hc => ?_, fun n hn hstop => ?_⟩
    · simpa using h 0 (Nat.zero_le _) (.inr (by simp [hc]))
    · have := h (n + 1) (Nat.succ_le_succ hn) (by simpa using hstop)
      simpa using this
  · rintro ⟨hc, h⟩ n hn hstop
    cases n with
    | zero =>
      have htick : c = '`' := by simpa using hstop
      simpa using hc htick
    | succ n =>
      have := h n (Nat.le_of_succ_le_succ hn) (by simpa using hstop)
      simpa using this

/-- A character that is no backslash ends the run before it. -/
theorem even_backslashes_concat {before : List Char} {c : Char} (h : c ≠ '\\') :
    Even (backslashes (before ++ [c])) := by
  rw [backslashes_concat, if_neg h]
  exact Even.zero

theorem even_backslashes_pair {before : List Char} {c : Char} (h : Even (backslashes before)) :
    Even (backslashes (before ++ ['\\'] ++ [c])) := by
  by_cases hc : c = '\\'
  · rw [backslashes_concat, if_pos hc, backslashes_concat, if_pos rfl]
    exact Nat.even_add_one.mpr (Nat.not_even_iff_odd.mpr h.add_one)
  · exact even_backslashes_concat hc

theorem not_even_backslashes_slash {before : List Char} (h : Even (backslashes before)) :
    ¬Even (backslashes (before ++ ['\\'])) := by
  rw [backslashes_concat, if_pos rfl]
  exact Nat.not_even_iff_odd.mpr h.add_one

/-! ## Reading what was written -/

/-- What is written never starts with a backtick. -/
theorem head_written (cs : List Char) : (cs.flatMap written).head? ≠ some '`' := by
  cases cs with
  | nil => simp
  | cons c cs =>
    by_cases hc : c = '`'
    · simp [written, hc]
    · simp [written, hc]

/-- Taking the backslashes away gives the script back, in pairs or not. -/
theorem unescapeBackticks_written (cs : List Char) : unescapeBackticks (cs.flatMap written) = cs := by
  induction cs with
  | nil => rfl
  | cons c cs ih =>
    rw [List.flatMap_cons]
    by_cases hc : c = '`'
    · rw [written, if_pos hc, List.cons_append, List.singleton_append, unescapeBackticks_escaped, ih, hc]
    · rw [written, if_neg hc, List.singleton_append, unescapeBackticks_plain fun _ => head_written cs, ih]

theorem written_plain {c : Char} (h : c ≠ '`') (cs : List Char) :
    (c :: cs).flatMap written = c :: cs.flatMap written := by
  simp [written, h]

theorem written_tick (cs : List Char) : ('`' :: cs).flatMap written = '\\' :: '`' :: cs.flatMap written := rfl

theorem map_add_eq_ok_iff {r : Except Fault Nat} {m k : Nat} : r.map (· + k) = .ok (m + k) ↔ r = .ok m := by
  cases r with
  | error f => simp [Except.map]
  | ok n => simp [Except.map]

/-- A script as it is written is read up to the fence that was put behind it if and only if its backslashes are in
pairs. -/
theorem scriptLength_written_iff (rest : List Char) : ∀ (cs before : List Char) (read : Nat),
    Even (backslashes before) →
    (scriptLength read (cs.flatMap written ++ (fence ++ rest)) = .ok (cs.flatMap written).length ↔
      PairedAfter before cs)
  | [], before, read, heven => by
    simpa [pairedAfter_nil, heven] using scriptLength_fence read rest
  | c :: cs, before, read, heven => by
    rw [pairedAfter_cons]
    by_cases htick : c = '`'
    · subst htick
      have ih := scriptLength_written_iff rest cs (before ++ ['`']) (read + 2) (even_backslashes_concat (by decide))
      rw [written_tick, List.cons_append, List.cons_append, scriptLength_escape, List.length_cons,
        List.length_cons, map_add_eq_ok_iff, ih]
      simp [heven]
    by_cases hslash : c = '\\'
    · subst hslash
      have hodd := not_even_backslashes_slash heven
      cases cs with
      | nil =>
        -- the backslash takes the first backtick of the fence
        have hread : scriptLength read ('\\' :: '`' :: '`' :: '`' :: rest) ≠ .ok 1 := by
          intro h
          rw [scriptLength_escape] at h
          obtain ⟨m, -, hm⟩ := map_eq_ok h
          omega
        simp only [pairedAfter_nil, hodd, and_false, iff_false]
        exact hread
      | cons d cs =>
        rw [pairedAfter_cons]
        by_cases hd : d = '`'
        · -- the backslash takes the one that was put before the backtick
          subst hd
          have hread : scriptLength read ('\\' :: '\\' :: '`' :: (cs.flatMap written ++ (fence ++ rest))) ≠
              .ok ((cs.flatMap written).length + 3) := by
            intro h
            rw [scriptLength_escape] at h
            obtain ⟨m, hm, hlength⟩ := map_eq_ok h
            obtain ⟨rfl, -⟩ := scriptLength_tick hm
            omega
          simp only [hodd, forall_const, false_and, and_false, iff_false]
          exact hread
        · have ih := scriptLength_written_iff rest cs (before ++ ['\\'] ++ [d]) (read + 2) (even_backslashes_pair heven)
          rw [written_plain htick, written_plain hd, List.cons_append, List.cons_append, scriptLength_escape,
            List.length_cons, List.length_cons, map_add_eq_ok_iff, ih]
          simp [hd]
    · have ih := scriptLength_written_iff rest cs (before ++ [c]) (read + 1) (even_backslashes_concat hslash)
      rw [written_plain htick, List.cons_append, scriptLength_plain read hslash htick, List.length_cons,
        map_add_eq_ok_iff, ih]
      simp [htick]

/-- Reading a script as it is written may stop one character early: at a backtick at the very end, which makes a fence
with two of those behind it. -/
theorem scriptLength_written_stop : ∀ (cs : List Char) {read n : Nat},
    scriptLength read (cs.flatMap written ++ fence) = .ok n →
      n = (cs.flatMap written).length ∨ ∃ front, cs.flatMap written = front ++ ['`'] ∧ n = front.length
  | [], read, n, h => by
    cases h
    exact .inl rfl
  | c :: cs, read, n, h => by
    by_cases htick : c = '`'
    · subst htick
      rw [written_tick, List.cons_append, List.cons_append, scriptLength_escape] at h
      obtain ⟨m, hm, rfl⟩ := map_eq_ok h
      obtain rfl | ⟨front, hfront, rfl⟩ := scriptLength_written_stop cs hm
      · exact .inl rfl
      · exact .inr ⟨'\\' :: '`' :: front, by rw [written_tick, hfront]; rfl, rfl⟩
    by_cases hslash : c = '\\'
    · subst hslash
      rw [written_plain htick] at h ⊢
      cases cs with
      | nil =>
        -- two backticks are left of the fence
        cases h
      | cons d cs =>
        by_cases hd : d = '`'
        · subst hd
          rw [written_tick, List.cons_append, List.cons_append, List.cons_append, scriptLength_escape] at h
          obtain ⟨m, hm, rfl⟩ := map_eq_ok h
          obtain ⟨rfl, tail, htail⟩ := scriptLength_tick hm
          -- a fence starts here only if nothing else is written after the backtick
          cases cs with
          | nil => exact .inr ⟨['\\', '\\'], rfl, rfl⟩
          | cons e cs =>
            by_cases he : e = '`'
            · simp [written, he, fence] at htail
            · simp [written, he, fence] at htail
        · rw [written_plain hd, List.cons_append, List.cons_append, scriptLength_escape] at h
          obtain ⟨m, hm, rfl⟩ := map_eq_ok h
          rw [written_plain hd]
          obtain rfl | ⟨front, hfront, rfl⟩ := scriptLength_written_stop cs hm
          · exact .inl rfl
          · exact .inr ⟨'\\' :: d :: front, by rw [hfront]; rfl, rfl⟩
    · rw [written_plain htick, List.cons_append, scriptLength_plain read hslash htick] at h
      obtain ⟨m, hm, rfl⟩ := map_eq_ok h
      rw [written_plain htick]
      obtain rfl | ⟨front, hfront, rfl⟩ := scriptLength_written_stop cs hm
      · exact .inl rfl
      · exact .inr ⟨c :: front, by rw [hfront]; rfl, rfl⟩

/-! ## Scripts as tokens -/

theorem lexeme_fenced {raw rest : List Char} (h : scriptLength 3 (raw ++ (fence ++ rest)) = .ok raw.length) :
    lexeme '`' ('`' :: '`' :: (raw ++ (fence ++ rest))) = .ok (.script (String.ofList raw), raw.length + 5) := by
  show scriptLexeme ('`' :: '`' :: (raw ++ (fence ++ rest))) = _
  simp [scriptLexeme, h]

theorem lexeme_tick_ok {cs : List Char} {k : Kind} {n : Nat} (h : lexeme '`' cs = .ok (k, n)) :
    ∃ body m, cs = '`' :: '`' :: body ∧ scriptLength 3 body = .ok m ∧ k = .script (String.ofList (body.take m)) ∧
      n = m + 5 := by
  have hscript : scriptLexeme cs = .ok (k, n) := h
  unfold scriptLexeme at hscript
  split at hscript
  · rename_i hticks
    obtain ⟨body, rfl⟩ := List.isPrefixOf_iff_prefix.mp hticks
    split at hscript
    · rename_i m hm
      cases hscript
      exact ⟨body, m, rfl, hm, rfl, rfl⟩
    · cases hscript
  · cases hscript

theorem scriptLength_of_lexeme {c : Char} {cs : List Char} {raw : String} {n : Nat}
    (h : lexeme c cs = .ok (.script raw, n)) :
    ∃ rest, scriptLength 3 (raw.toList ++ (fence ++ rest)) = .ok raw.toList.length := by
  obtain rfl : c = '`' := (List.cons.inj (lexeme_script h).1).1
  obtain ⟨body, m, rfl, hm, hkind, -⟩ := lexeme_tick_ok h
  cases hkind
  obtain ⟨front, rest, rfl, rfl, hagain⟩ := scriptLength_ok hm
  rw [List.take_left, String.toList_ofList]
  exact ⟨rest, hagain 3 rest⟩

theorem toList_fenced (script : String) :
    (fenced script).toList = '`' :: '`' :: '`' :: (script.toList.flatMap written ++ (fence ++ [])) := by
  rw [fenced, String.toList_ofList, List.append_nil]
  rfl

theorem isSourceChar_fenced {script : String} (h : ∀ c ∈ script.toList, isSourceChar c = true) :
    ∀ c ∈ (fenced script).toList, isSourceChar c = true := by
  intro c hc
  simp only [fenced, String.toList_ofList, List.mem_append, List.mem_flatMap] at hc
  obtain hc | ⟨d, hd, hc⟩ | hc := hc
  · exact List.all_eq_true.mp (by decide : fence.all isSourceChar = true) c hc
  · by_cases htick : d = '`'
    · rw [written, if_pos htick] at hc
      exact List.all_eq_true.mp (by decide : ['\\', '`'].all isSourceChar = true) c hc
    · rw [written, if_neg htick, List.mem_singleton] at hc
      exact hc ▸ h d hd
  · exact List.all_eq_true.mp (by decide : fence.all isSourceChar = true) c hc

/-- A script in pairs is one token, with all that was written between the fences. -/
theorem tokenize_fenced {script : String} (h : ∀ c ∈ script.toList, isSourceChar c = true)
    (hpaired : Paired script.toList) :
    ∃ first last, tokenize (fenced script) =
      .ok [⟨.script (String.ofList (script.toList.flatMap written)), first⟩, ⟨.endOfInput, last⟩] := by
  have hlexeme := lexeme_fenced ((scriptLength_written_iff [] script.toList [] 3 Even.zero).mpr hpaired)
  have hscan := tokensFrom_lexeme hlexeme .start
  have hrest : ('`' :: '`' :: (script.toList.flatMap written ++ (fence ++ []))).drop
      ((script.toList.flatMap written).length + 5) = [] := by
    apply List.drop_of_length_le
    simp [fence]
  rw [hrest, tokensFrom_nil, ← toList_fenced] at hscan
  exact ⟨_, _, tokenize_eq_ok.mpr ⟨isSourceChar_fenced h, hscan⟩⟩

/-- No gap starts with a backtick. -/
theorem tokensFrom_tick (p : Position) (cs : List Char) : tokensFrom p ('`' :: cs) = tokensAt p ('`' :: cs) :=
  tokensFrom_eq p ('`' :: cs)

/-- If the text of a script is read at all, the script is in pairs: where reading stops early, a single backtick is
left. -/
theorem paired_of_tokenize_fenced {script : String} {tokens : List Token} (h : tokenize (fenced script) = .ok tokens) :
    Paired script.toList := by
  obtain ⟨-, hscan⟩ := tokenize_eq_ok.mp h
  rw [toList_fenced, tokensFrom_tick, tokensAt] at hscan
  split at hscan
  · cases hscan
  rename_i k n hlexeme
  obtain ⟨later, hlater, -⟩ := map_eq_ok hscan
  obtain ⟨body, m, hbody, hm, -, rfl⟩ := lexeme_tick_ok hlexeme
  obtain rfl : script.toList.flatMap written ++ (fence ++ []) = body := by simpa using hbody
  obtain rfl | ⟨front, hfront, rfl⟩ := scriptLength_written_stop script.toList hm
  · exact (scriptLength_written_iff [] script.toList [] 3 Even.zero).mp hm
  · have hleft : ('`' :: '`' :: (script.toList.flatMap written ++ (fence ++ []))).drop (front.length + 5) = ['`'] := by
      rw [hfront]
      simp [fence, List.drop_append]
    rw [hleft, tokensFrom_tick] at hlater
    cases hlater

/-- A script token stands for a script in pairs. -/
theorem paired_of_script_token {source : String} {tokens : List Token} (h : tokenize source = .ok tokens)
    {t : Token} (ht : t ∈ tokens) {raw : String} (hkind : t.kind = .script raw) :
    Paired (unescapeBackticks raw.toList) := by
  obtain ⟨front, span, rfl, hfront⟩ := tokensFrom_ok (tokenize_eq_ok.mp h).2
  have hmem : t ∈ front := by
    obtain hmem | hlast := List.mem_append.mp ht
    · exact hmem
    · rw [List.mem_singleton.mp hlast] at hkind
      cases hkind
  obtain ⟨before, c, rest, n, -, hlexeme, -⟩ := hfront t hmem
  rw [hkind] at hlexeme
  obtain ⟨tail, hlength⟩ := scriptLength_of_lexeme hlexeme
  rw [← (lexeme_script hlexeme).2] at hlength
  exact (scriptLength_written_iff tail _ [] 3 Even.zero).mp hlength

/-- **A script can be written if and only if, wherever it ends or has a backtick, an even number of backslashes stands
right before.** Written with a backslash before each backtick and between fences, it is then one token that stands for
exactly this script. Otherwise that text is refused, and no source text has a token that stands for the script. -/
theorem script_can_be_written_iff_paired (script : String)
    (h : ∀ c ∈ script.toList, isSourceChar c = true) :
    ((∃ raw first last, tokenize (fenced script) = .ok [⟨.script raw, first⟩, ⟨.endOfInput, last⟩] ∧
        (Fenced.mk raw first).unescaped = script) ↔ Paired script.toList) ∧
      ((∃ tokens, tokenize (fenced script) = .ok tokens) ↔ Paired script.toList) ∧
      ((∃ source tokens t raw, tokenize source = .ok tokens ∧ t ∈ tokens ∧ t.kind = .script raw ∧
        (Fenced.mk raw t.span).unescaped = script) ↔ Paired script.toList) := by
  have hone : Paired script.toList → ∃ raw first last,
      tokenize (fenced script) = .ok [⟨.script raw, first⟩, ⟨.endOfInput, last⟩] ∧
        (Fenced.mk raw first).unescaped = script := by
    intro hpaired
    obtain ⟨first, last, htokens⟩ := tokenize_fenced h hpaired
    refine ⟨_, first, last, htokens, ?_⟩
    rw [Fenced.unescaped, String.toList_ofList, unescapeBackticks_written, String.ofList_toList]
  refine ⟨⟨?_, hone⟩, ⟨?_, ?_⟩, ⟨?_, ?_⟩⟩
  · rintro ⟨raw, first, last, htokens, -⟩
    exact paired_of_tokenize_fenced htokens
  · rintro ⟨tokens, htokens⟩
    exact paired_of_tokenize_fenced htokens
  · intro hpaired
    obtain ⟨raw, first, last, htokens, -⟩ := hone hpaired
    exact ⟨_, htokens⟩
  · rintro ⟨source, tokens, t, raw, htokens, ht, hkind, rfl⟩
    rw [Fenced.unescaped, String.toList_ofList]
    exact paired_of_script_token htokens ht hkind
  · intro hpaired
    obtain ⟨raw, first, last, htokens, hraw⟩ := hone hpaired
    exact ⟨_, _, _, raw, htokens, List.mem_cons_self, rfl, hraw⟩

/-- Two backslashes before the closing backtick of a template, one inside it. -/
theorem template_with_paired_backslashes :
    (∀ c ∈ "return `\\d\\\\`".toList, isSourceChar c = true) ∧ Paired "return `\\d\\\\`".toList ∧
      ∃ raw first last,
        tokenize (fenced "return `\\d\\\\`") = .ok [⟨.script raw, first⟩, ⟨.endOfInput, last⟩] ∧
          (Fenced.mk raw first).unescaped = "return `\\d\\\\`" := by
  have hchars : ∀ c ∈ "return `\\d\\\\`".toList, isSourceChar c = true := List.all_eq_true.mp (by decide)
  have hpaired : Paired "return `\\d\\\\`".toList := by decide
  exact ⟨hchars, hpaired, (script_can_be_written_iff_paired _ hchars).1.mpr hpaired⟩

/-- With one backslash before its backtick a script is refused, for the backtick that was written as it should be. -/
theorem single_backslash_before_backtick_refused :
    (∀ c ∈ "\\`x".toList, isSourceChar c = true) ∧ (fenced "\\`x").toList = "```\\\\`x```".toList ∧
      tokenize (fenced "\\`x") = .error ⟨.bareBacktick, ⟨5, 5, 1, 6⟩⟩ := by
  refine ⟨List.all_eq_true.mp (by decide), by decide, ?_⟩
  decide +kernel

end AliasLang.Token
