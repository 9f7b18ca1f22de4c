/-
What is left of a script. The passes put semicolons in and leave stretches out, one pass after another, and each works
on what the one before it left. `Aligned` says of the tokens after some passes where they stand in the script, which
stretches of it are left out before each of them, and what is known of the neighbours that came together that way.

So at the end, semicolons aside, the tokens are those of the script in their order, and what is missing between two of
them is made up of whole console calls and whole function declarations. Where line breaks are kept, a call can stand
between the parts of a declaration, and both go, one after the other.
-/
import AliasLang.Proofs.Script.Removal
import AliasLang.Proofs.Script.Scan
import Mathlib.Data.List.Basic

namespace AliasLang.Script

variable {parted : Prop} {front : List Token}

/-! ## Neighbours -/

/-- No line break between these neighbours ends a statement, unless the first of them is a closing brace. -/
def Settled (last : Option Token) (t : Token) : Prop :=
  ∀ p ∈ last, t.newlineBefore = true → p.endsStatement = true → Token.startsStatement p t = true →
    p.isPunct "\x7d" = true

/-- Something may have been left out behind this token. -/
def MayFollow (parted : Prop) (last : Option Token) : Prop :=
  EndsBlockPart last ∨ parted ∧ ∀ p ∈ last, p.isWord "function" = false

/-- A statement can start with `t`, or the block part before it ends with `t`. -/
def Opens (last : Option Token) (t : Token) : Prop :=
  MayStart last t ∨ t.isPunct ";" = true ∨ t.isPunct "\x7d" = true

theorem Opens.of_endsBlockPart {last : Option Token} (h : EndsBlockPart last) (t : Token) : Opens last t :=
  .inl (.inl h)

/-- A statement does not end with a semicolon or an opening brace of its own. -/
theorem EndsBlockPart.settled {last : Option Token} (h : EndsBlockPart last) (t : Token) : Settled last t := by
  intro p hp _ hends _
  rcases h p hp with hp | hp | hp
  · simp only [Token.isPunct, Bool.and_eq_true, decide_eq_true_eq] at hp
    simp [Token.endsStatement, hp.1, hp.2] at hends
  · simp only [Token.isPunct, Bool.and_eq_true, decide_eq_true_eq] at hp
    simp [Token.endsStatement, hp.1, hp.2] at hends
  · exact hp

theorem settled_semicolon {s : Token} (hs : s.isPunct ";" = true) (last : Option Token) : Settled last s := by
  intro p _ _ _ hstarts
  simp only [Token.isPunct, Bool.and_eq_true, decide_eq_true_eq] at hs
  simp [Token.startsStatement, hs.1, hs.2] at hstarts

theorem MayFollow.settled {last : Option Token} (h : MayFollow parted last) (t : Token) : parted ∨ Settled last t := by
  rcases h with h | ⟨hparted, -⟩
  · exact .inr (h.settled t)
  · exact .inl hparted

/-- Behind what a statement can follow, something may be left out. -/
theorem mayFollow_of_isBlockPosition {last : Option Token} {t : Token} {text : String}
    (h : isBlockPosition last t = true) (ht : t.isWord text = true) (htext : text ∉ "while" :: continuingWords)
    (hsettled : parted ∨ Settled last t) : MayFollow parted last := by
  rcases isBlockPosition_cases h with h | ⟨p, rfl, hbreak, hends⟩
  · exact .inl h
  rcases hsettled with hparted | hsettled
  · refine .inr ⟨hparted, fun q hq => ?_⟩
    cases hq
    rw [← Bool.not_eq_true]
    intro hfunction
    simp only [Token.isWord, Bool.and_eq_true, decide_eq_true_eq] at hfunction
    simp only [Token.endsStatement, hfunction.1, hfunction.2] at hends
    exact absurd hends (by decide)
  · have hstarts : Token.startsStatement p t = true := by
      simp only [Token.isWord, Bool.and_eq_true, decide_eq_true_eq] at ht
      rw [List.mem_cons, not_or] at htext
      simp [Token.startsStatement, ht.1, ht.2, htext]
    refine .inl fun q hq => ?_
    cases hq
    exact .inr (.inr (hsettled p rfl hbreak hends hstarts))

/-! ## Alignment -/

/-- The token `t` of a script is kept next after the token `last`, and what stands before it behind `front`, the
stretch `gap`, is left out. Gaps stand where `gaps` allows them, and before semicolons. -/
structure Fits (parted : Prop) (gaps : Option Token → Prop) (front gap : List Token) (last : Option Token) (t : Token) :
    Prop where
  removable : Removable parted front gap
  follows : gap = [] ∨ gaps last ∨ t.isPunct ";" = true
  opens : gap = [] ∧ last = front.getLast? ∨ Opens (front ++ gap).getLast? t
  settled : parted ∨ Settled last t

/-- What is kept of the tokens `ts`, which stand behind `front`, next after the token `last`, with semicolons put in. -/
inductive Aligned (parted : Prop) (gaps : Option Token → Prop) :
    (front : List Token) → (last : Option Token) → (ts kept : List Token) → Prop
  | done {front gap : List Token} {last : Option Token} (hgap : Removable parted front gap) :
      Aligned parted gaps front last gap []
  | keep {front gap ts kept : List Token} {last : Option Token} {t : Token}
      (hfits : Fits parted gaps front gap last t) (hrest : Aligned parted gaps (front ++ gap ++ [t]) (some t) ts kept) :
      Aligned parted gaps front last (gap ++ t :: ts) (t :: kept)
  | insert {front ts kept : List Token} {last : Option Token} {s : Token} (hs : s.isPunct ";" = true)
      (hrest : Aligned parted gaps front (some s) ts kept) : Aligned parted gaps front last ts (s :: kept)

section Alignment

variable {gaps : Option Token → Prop} {last : Option Token} {ts cur : List Token}

theorem Aligned.mono {gaps' : Option Token → Prop} (hgaps : ∀ last, gaps last → gaps' last)
    (h : Aligned parted gaps front last ts cur) : Aligned parted gaps' front last ts cur := by
  induction h with
  | done hgap => exact .done hgap
  | keep hfits _ ih =>
    refine .keep ⟨hfits.removable, ?_, hfits.opens, hfits.settled⟩ ih
    exact hfits.follows.imp_right (Or.imp_left (hgaps _))
  | insert hs _ ih => exact .insert hs ih

theorem Aligned.uncons {t : Token} (h : Aligned parted gaps front last ts (t :: cur)) (ht : t.isPunct ";" = false) :
    ∃ gap ts', ts = gap ++ t :: ts' ∧ Fits parted gaps front gap last t ∧
      Aligned parted gaps (front ++ gap ++ [t]) (some t) ts' cur := by
  cases h with
  | keep hfits hrest => exact ⟨_, _, rfl, hfits, hrest⟩
  | insert hs => simp [hs] at ht

theorem openAfter_semicolon {s : Token} (hs : s.isPunct ";" = true) (opened : List Char) (a : List Token) :
    openAfter opened (s :: a) = openAfter opened a := by
  rw [openAfter, openBy_plain (isPlain_semicolon hs), Option.bind_some]

/-- The tokens of a script that a stretch of kept ones comes from, and those that the rest comes from. -/
theorem Aligned.split {a : List Token} (h : Aligned parted gaps front last ts (a ++ cur)) :
    ∃ a' ts', ts = a' ++ ts' ∧ (∀ opened, openAfter opened a' = openAfter opened a) ∧
      Aligned parted gaps (front ++ a') (a.getLast?.or last) ts' cur := by
  induction a generalizing front last ts with
  | nil => exact ⟨[], ts, rfl, fun _ => rfl, by simpa using h⟩
  | cons t a ih =>
    rw [or_getLast?_cons]
    cases h with
    | @keep _ gap ts _ _ _ hfits hrest =>
      obtain ⟨a', ts', rfl, hopen, hrest⟩ := ih hrest
      refine ⟨gap ++ t :: a', ts', by simp, fun opened => ?_, by simpa using hrest⟩
      rw [openAfter_nested hfits.removable.nested, openAfter, openAfter]
      exact congrArg _ (funext hopen)
    | insert hs hrest =>
      obtain ⟨a', ts', rfl, hopen, hrest⟩ := ih hrest
      exact ⟨a', ts', rfl, fun opened => by rw [hopen, openAfter_semicolon hs], hrest⟩

theorem Aligned.openAfter_eq (h : Aligned parted gaps front last ts cur) (opened : List Char) :
    openAfter opened ts = openAfter opened cur := by
  rw [← List.append_nil cur] at h
  obtain ⟨a, ts', rfl, hopen, hdone⟩ := h.split
  cases hdone with
  | done hgap =>
    rw [openAfter_append, hopen, funext hgap.nested.openAfter, Option.bind_fun_some]

theorem not_semicolon_of_kind {t : Token} (h : t.kind = .word) : t.isPunct ";" = false := by
  simp [Token.isPunct, h]

theorem not_semicolon_of_isWord {t : Token} {text : String} (h : t.isWord text = true) : t.isPunct ";" = false := by
  simp only [Token.isWord, Bool.and_eq_true, decide_eq_true_eq] at h
  exact not_semicolon_of_kind h.1

theorem not_semicolon_of_isPunct {t : Token} {text : String} (h : t.isPunct text = true) (htext : text ≠ ";") :
    t.isPunct ";" = false := by
  simp only [Token.isPunct, Bool.and_eq_true, decide_eq_true_eq] at h
  simp [Token.isPunct, h.2, htext]

/-- The bracketed stretch of a script that a kept one comes from. -/
theorem Aligned.enclosed {opening closing : String} {block : List Token} (hblock : Enclosed opening closing block)
    (hopening : opening ≠ ";") (hclosing : closing ≠ ";") (h : Aligned parted gaps front last ts (block ++ cur)) :
    ∃ gap block' ts', ts = gap ++ (block' ++ ts') ∧ Removable parted front gap ∧ (gap = [] ∨ gaps last) ∧
      Enclosed opening closing block' ∧ Aligned parted gaps (front ++ gap ++ block') block.getLast? ts' cur := by
  obtain ⟨o, inner, c, rfl, ho, hc, hinner⟩ := hblock
  rw [List.cons_append, List.append_assoc] at h
  have hno := not_semicolon_of_isPunct ho hopening
  obtain ⟨gap, ts', rfl, hfits, h⟩ := h.uncons hno
  obtain ⟨inner', ts', rfl, hopen, h⟩ := h.split
  obtain ⟨gap', ts', rfl, hfits', h⟩ := h.uncons (not_semicolon_of_isPunct hc hclosing)
  refine ⟨gap, o :: (inner' ++ gap' ++ [c]), ts', by simp, hfits.removable, ?_, ?_, ?_⟩
  · simpa [hno] using hfits.follows
  · refine ⟨o, inner' ++ gap', c, by simp, ho, hc, ?_⟩
    have hinner' : Nested inner' := by rw [Nested, hopen, hinner]
    exact hinner'.append hfits'.removable.nested
  · have hlast : (o :: (inner ++ [c])).getLast? = some c := by rw [← List.cons_append, List.getLast?_concat]
    rw [hlast]
    simpa using h

end Alignment

/-! ## Passes -/

/-- The stretch `gap` behind `front` has just been left out, so that the token `last` comes right before the tokens
`cur`, where `last'` came before. -/
structure Skips (parted : Prop) (front gap : List Token) (last last' : Option Token) (cur : List Token) : Prop where
  removable : Removable parted front gap
  next : gap = [] ∧ last = last' ∨
    ∀ t ∈ cur.head?, (MayFollow parted last ∨ t.isPunct ";" = true) ∧ Opens last' t ∧ (parted ∨ Settled last t)

section Passes

variable {gaps : Option Token → Prop} {last last' : Option Token} {gap ts cur : List Token}

theorem Skips.refl (front : List Token) (last : Option Token) (cur : List Token) :
    Skips parted front [] last last cur :=
  ⟨.nil, .inl ⟨rfl, rfl⟩⟩

/-- Behind a semicolon anything may follow. -/
theorem Skips.semicolon {s : Token} (hs : s.isPunct ";" = true) (h : Skips parted front gap last last' (s :: cur)) :
    Skips parted front gap (some s) (some s) cur := by
  have hends := endsBlockPart_of_semicolon hs
  exact ⟨h.removable, .inr fun t _ => ⟨.inl (.inl hends), .of_endsBlockPart hends t, .inr (hends.settled t)⟩⟩

theorem Skips.fits {gap' : List Token} {t : Token} (hgaps : ∀ last, gaps last → MayFollow parted last)
    (h : Skips parted front gap last last' (t :: cur)) (hfits : Fits parted gaps (front ++ gap) gap' last' t) :
    Fits parted (MayFollow parted) front (gap ++ gap') last t := by
  have hremovable := h.removable.append hfits.removable
  rcases h.next with ⟨rfl, rfl⟩ | hnext
  · rw [List.append_nil] at hfits
    refine ⟨hremovable, ?_, hfits.opens, hfits.settled⟩
    exact hfits.follows.imp_right (Or.imp_left (hgaps _))
  · obtain ⟨hfollows, hopens, hsettled⟩ := hnext t rfl
    refine ⟨hremovable, .inr hfollows, .inr ?_, hsettled⟩
    rw [← List.append_assoc]
    rcases hfits.opens with ⟨rfl, rfl⟩ | hopens'
    · rwa [List.append_nil]
    · exact hopens'

/-- Tokens are kept at the front, and the rest is passed over with what was skipped last. -/
theorem Aligned.keepFront {a kept : List Token} (hgaps : ∀ last, gaps last → MayFollow parted last)
    (hskips : Skips parted front gap last last' (a ++ cur))
    (h : Aligned parted gaps (front ++ gap) last' ts (a ++ cur))
    (hnext : ∀ front' gap' ts', openAfter [] (front' ++ gap') = openAfter [] (front ++ gap ++ a) →
      Skips parted front' gap' (a.getLast?.or last) (a.getLast?.or last') cur →
      Aligned parted gaps (front' ++ gap') (a.getLast?.or last') ts' cur →
      Aligned parted (MayFollow parted) front' (a.getLast?.or last) (gap' ++ ts') kept) :
    Aligned parted (MayFollow parted) front last (gap ++ ts) (a ++ kept) := by
  induction a generalizing front gap last last' ts with
  | nil => exact hnext front gap ts (by rw [List.append_nil]) hskips h
  | cons t a ih =>
    simp only [or_getLast?_cons] at hnext
    cases h with
    | @keep _ gap' ts _ _ _ hfits hrest =>
      have hopen : openAfter [] (front ++ gap ++ gap' ++ [t] ++ a) = openAfter [] (front ++ gap ++ t :: a) := by
        rw [List.append_assoc _ [t], List.append_assoc (front ++ gap), openAfter_append,
          openAfter_append [] (front ++ gap)]
        congr 1
        funext opened
        exact openAfter_nested hfits.removable.nested opened _
      have hkeep := ih (.refl (front ++ gap ++ gap' ++ [t]) (some t) _) (by simpa using hrest)
        (by simpa only [List.append_nil, hopen] using hnext)
      rw [← List.append_assoc]
      refine .keep (hskips.fits hgaps hfits) ?_
      simpa [List.append_assoc] using hkeep
    | insert hs hrest =>
      refine .insert hs (ih (hskips.semicolon hs) hrest fun front' gap' ts' hopen => hnext front' gap' ts' ?_)
      rw [hopen, openAfter_append, openAfter_append [] (front ++ gap)]
      congr 1
      funext opened
      exact (openAfter_semicolon hs opened a).symm

/-- A token is kept, and nothing is left out before it. -/
theorem Aligned.keepHere {t : Token} (hopens : last = front.getLast? ∨ Opens front.getLast? t)
    (hsettled : parted ∨ Settled last t) (h : Aligned parted gaps (front ++ [t]) (some t) ts cur) :
    Aligned parted gaps front last (t :: ts) (t :: cur) := by
  have hfits : Fits parted gaps front [] last t := by
    refine ⟨.nil, .inl rfl, hopens.imp (⟨rfl, ·⟩) fun hopens => ?_, hsettled⟩
    rwa [List.append_nil]
  exact .keep hfits (by rwa [List.append_nil])

theorem Aligned.refl (hparted : parted) (hlast : last = front.getLast?) (ts : List Token) :
    Aligned parted gaps front last ts ts := by
  induction ts generalizing front last with
  | nil => exact .done .nil
  | cons t ts ih => exact .keepHere (.inl hlast) (.inl hparted) (ih (by simp))

/-- Semicolons are put in so that no line break ends a statement. -/
theorem insertSemicolons_aligned
    (hhead : ∀ t ∈ ts.head?, (last = front.getLast? ∨ Opens front.getLast? t) ∧ Settled last t) :
    Aligned parted gaps front last ts (insertSemicolons ts) := by
  fun_induction insertSemicolons ts generalizing front last with
  | case1 => exact .done .nil
  | case2 t =>
    obtain ⟨hopens, hsettled⟩ := hhead t rfl
    exact .keepHere hopens (.inr hsettled) (.done .nil)
  | case3 t u rest hbreak ih =>
    obtain ⟨hopens, hsettled⟩ := hhead t rfl
    simp only [Bool.and_eq_true] at hbreak
    refine .keepHere hopens (.inr hsettled) (.insert (isPunct_semicolonAfter t) (ih fun v hv => ?_))
    cases hv
    exact ⟨.inr (.inl (.inr hbreak.1.1)), (endsBlockPart_of_semicolon (isPunct_semicolonAfter t)).settled u⟩
  | case4 t u rest hbreak ih =>
    obtain ⟨hopens, hsettled⟩ := hhead t rfl
    refine .keepHere hopens (.inr hsettled) (ih fun v hv => ?_)
    cases hv
    refine ⟨.inl (by simp), fun p hp hfeed hends hstarts => ?_⟩
    cases hp
    simp [hfeed, hends, hstarts] at hbreak

/-- A semicolon that is dropped goes with the stretch before it. -/
theorem Aligned.dropSemicolon {s : Token} (hs : s.isPunct ";" = true)
    (h : Aligned parted gaps front last ts (s :: cur)) :
    ∃ removed ts', ts = removed ++ ts' ∧ Removable parted front removed ∧
      Aligned parted gaps (front ++ removed) (some s) ts' cur := by
  cases h with
  | @keep _ gap ts _ _ _ hfits hrest =>
    refine ⟨gap ++ [s], ts, by simp, hfits.removable.append (.semicolon hs .nil), ?_⟩
    rwa [← List.append_assoc]
  | insert _ hrest => exact ⟨[], ts, rfl, .nil, by rwa [List.append_nil]⟩

/-! ### Console calls -/

/-- The call of a script that a kept one comes from, where nothing is left out so far. -/
theorem Aligned.call {call : List Token} (hcall : IsConsoleCall call)
    (h : Aligned parted (fun _ => False) front last ts (call ++ cur)) :
    ∃ gap call' ts', ts = gap ++ (call' ++ ts') ∧ call'.head? = call.head? ∧ IsConsoleCall call' ∧
      (∀ t ∈ call.head?, Fits parted (fun _ => False) front gap last t) ∧
      Aligned parted (fun _ => False) (front ++ gap ++ call') call.getLast? ts' cur := by
  obtain ⟨object, dot, method, args, rfl, hobject, hdot, hmethod, hargs⟩ := hcall
  obtain ⟨gap, ts', rfl, hfits, h⟩ := h.uncons (not_semicolon_of_isWord hobject)
  have hdot' := not_semicolon_of_isPunct hdot (by decide)
  obtain ⟨gap', ts', rfl, hfits', h⟩ := h.uncons hdot'
  obtain rfl : gap' = [] := by simpa [hdot'] using hfits'.follows
  have hmethod' := not_semicolon_of_kind hmethod
  obtain ⟨gap', ts', rfl, hfits', h⟩ := h.uncons hmethod'
  obtain rfl : gap' = [] := by simpa [hmethod'] using hfits'.follows
  obtain ⟨gap', args', ts', rfl, -, hnone, hargs', h⟩ := h.enclosed hargs (by decide) (by decide)
  obtain rfl : gap' = [] := by simpa using hnone
  refine ⟨gap, object :: dot :: method :: args', ts', by simp, rfl, ⟨object, dot, method, args', rfl, hobject, hdot,
    hmethod, hargs'⟩, fun t ht => ?_, ?_⟩
  · cases ht
    exact hfits
  · have hlast : (object :: dot :: method :: args).getLast? = args.getLast? := by
      obtain ⟨o, inner, c, rfl, -⟩ := hargs
      simp [List.getLast?_cons]
    rw [hlast]
    simpa using h

/-- Leaving out a call, with what is already left out before it. -/
theorem Aligned.dropCall {t : Token} {rest : List Token} {n : Nat} {opened after : List Char}
    (hcall : consoleCallLength? last (t :: rest) = some n) (hopen : openAfter opened (t :: rest) = some after)
    (hskips : Skips parted front gap last last' (t :: rest))
    (h : Aligned parted (fun _ => False) (front ++ gap) last' ts (t :: rest)) :
    ∃ removed ts', gap ++ ts = removed ++ ts' ∧ Removable parted front removed ∧
      Aligned parted (fun _ => False) (front ++ removed) (t :: rest.take (n - 1)).getLast? ts' (rest.drop (n - 1)) ∧
      (last.any Token.isControlPosition = false → MayFollow parted last) ∧
      openAfter opened (rest.drop (n - 1)) = some after ∧
      ∀ last' : Option Token, ∀ u ∈ (rest.drop (n - 1)).head?, Opens last' u := by
  obtain ⟨ht, hplace, hcalled, hnext⟩ := consoleCallLength?_cases hcall hopen
  have hparts : t :: rest = (t :: rest.take (n - 1)) ++ rest.drop (n - 1) := by
    rw [List.cons_append, List.take_append_drop]
  rw [hparts] at h hopen
  obtain ⟨gap', call, ts', rfl, hhead, hcall', hfits, h⟩ := h.call hcalled
  have hfits := hskips.fits (fun _ => False.elim) (hfits t rfl)
  refine ⟨gap ++ gap' ++ call, ts', by simp, ?_, by simpa using h, fun hcontrol => ?_, ?_, fun last' u hu => ?_⟩
  · rw [← List.append_nil call]
    refine hfits.removable.append (.call hcall' (fun u hu => ?_) .nil)
    rw [hhead] at hu
    cases hu
    -- a word ends no block part
    have hword : ¬(t.isPunct ";" = true ∨ t.isPunct "\x7d" = true) := by
      simp only [Token.isWord, Bool.and_eq_true, decide_eq_true_eq] at ht
      simp [Token.isPunct, ht.1]
    rcases hfits.opens with ⟨hgap, rfl⟩ | hopens
    · rw [hgap, List.append_nil]
      exact hplace.imp_left mayStart_of_isBlockPosition
    · exact .inl (hopens.resolve_right hword)
  · rw [hcontrol] at hplace
    exact mayFollow_of_isBlockPosition (hplace.resolve_right (by decide)) ht (by decide) hfits.settled
  · rwa [openAfter_nested hcalled.nested] at hopen
  · rcases hnext u hu with hu | hu | hu
    · exact .inr (.inl hu)
    · exact .inr (.inr hu)
    · exact .inl (.inr hu)

theorem dropConsoleFrom_aligned {opened after : List Char} (hopen : openAfter opened cur = some after)
    (hskips : Skips parted front gap last last' cur) (h : Aligned parted (fun _ => False) (front ++ gap) last' ts cur) :
    Aligned parted (MayFollow parted) front last (gap ++ ts) (dropConsoleFrom last cur) := by
  fun_induction dropConsoleFrom last cur generalizing front gap last' ts opened with
  | case1 =>
    cases h with
    | done hgap => exact .done (hskips.removable.append hgap)
  | case2 last t rest hcall ih =>
    rw [openAfter, Option.bind_eq_some_iff] at hopen
    obtain ⟨middle, -, hopen⟩ := hopen
    exact .keepFront (a := [t]) (fun _ => False.elim) hskips h fun front' gap' ts' _ hskips h => ih hopen hskips h
  | case3 last t rest n hcall after' hsemicolon hcontrol =>
    rename_i hhas ih
    obtain ⟨removed, ts', hts, hremoved, h, -, hopen, hopens⟩ := h.dropCall hcall hopen hskips
    rw [hts]
    refine ih hopen ⟨hremoved, .inr fun u hu => ?_⟩ h
    have hu' : u.isPunct ";" = true := by
      rw [Option.mem_def] at hu
      simpa [hsemicolon, after', hu] using hhas
    exact ⟨.inr hu', hopens _ u hu, .inr (settled_semicolon hu' last)⟩
  | case4 last t rest n hcall after' hsemicolon hcontrol =>
    rename_i hhas semicolon ih
    obtain ⟨removed, ts', hts, hremoved, h, -, hopen, hopens⟩ := h.dropCall hcall hopen hskips
    have hends : EndsBlockPart (some semicolon) := endsBlockPart_of_semicolon (isPunct_semicolonAfter _)
    rw [hts]
    refine .insert (isPunct_semicolonAfter _) (ih hopen ⟨hremoved, .inr fun u hu => ?_⟩ h)
    exact ⟨.inl (.inl hends), hopens _ u hu, .inr (hends.settled u)⟩
  | case5 last t rest n hcall after' hsemicolon hcontrol =>
    rename_i hhas ih
    obtain ⟨removed, ts', hts, hremoved, h, hfollow, hopen, hopens⟩ := h.dropCall hcall hopen hskips
    have hfollow := hfollow (by simpa using hcontrol)
    cases hafter : rest.drop (n - 1) with
    | nil => simp [hsemicolon, after', hafter] at hhas
    | cons u us =>
      have hu : u.isPunct ";" = true := by simpa [hsemicolon, after', hafter] using hhas
      rw [hafter] at h hopen
      obtain ⟨removed', ts', rfl, hremoved', h⟩ := h.dropSemicolon hu
      rw [openAfter_semicolon hu] at hopen
      have hdrop : after'.drop 1 = us := by simp [after', hafter]
      rw [hdrop] at ih ⊢
      rw [hts, ← List.append_assoc]
      refine ih hopen ⟨hremoved.append hremoved', .inr fun v hv => ?_⟩ (by simpa using h)
      exact ⟨.inl hfollow, .of_endsBlockPart (endsBlockPart_of_semicolon hu) v, hfollow.settled v⟩
  | case6 last t rest n hcall after' hsemicolon hcontrol =>
    rename_i hhas ih
    obtain ⟨removed, ts', hts, hremoved, h, hfollow, hopen, hopens⟩ := h.dropCall hcall hopen hskips
    have hfollow := hfollow (by simpa using hcontrol)
    rw [hts]
    refine ih hopen ⟨hremoved, .inr fun u hu => ?_⟩ h
    exact ⟨.inl hfollow, hopens _ u hu, hfollow.settled u⟩

/-! ### Function declarations -/

/-- Leaving out a declaration. -/
theorem Aligned.dropDeclaration {declaration : List Token} (hdeclaration : IsDeclaration declaration)
    (hfront : Nested front) (hplace : ∀ t ∈ declaration.head?, isBlockPosition last t = true)
    (h : Aligned parted (MayFollow parted) front last ts (declaration ++ cur)) :
    ∃ removed ts', ts = removed ++ ts' ∧ Removable parted front removed ∧
      (∀ t ∈ declaration.head?, parted ∨ Settled last t) ∧
      Aligned parted (MayFollow parted) (front ++ removed) declaration.getLast? ts' cur := by
  obtain ⟨keyword, word, params, body, tail, rfl, hkeyword, hword, hparams, hbody, htail⟩ := hdeclaration
  have hplace := hplace keyword rfl
  simp only [List.cons_append, List.append_assoc] at h
  have hkeyword' : keyword.kind = .word := by
    simp only [Token.isWord, Bool.and_eq_true, decide_eq_true_eq] at hkeyword
    exact hkeyword.1
  obtain ⟨gap, ts', rfl, hfits, h⟩ := h.uncons (not_semicolon_of_isWord hkeyword)
  have hword' := not_semicolon_of_kind hword
  obtain ⟨gap', ts', rfl, hfits', h⟩ := h.uncons hword'
  -- nothing is left out behind the keyword
  obtain rfl : gap' = [] := by
    rcases hfits'.follows with hnil | (hends | ⟨-, hother⟩) | hsemicolon
    · exact hnil
    · exact absurd hends (not_endsBlockPart (.inl hkeyword'))
    · rw [hother keyword rfl] at hkeyword
      cases hkeyword
    · rw [hword'] at hsemicolon
      cases hsemicolon
  obtain ⟨between, params', ts', rfl, hbetween, hparted, hparams', h⟩ := h.enclosed hparams (by decide) (by decide)
  have hparted : parted ∨ between = [] := by
    rcases hparted with hnil | hends | ⟨hparted, -⟩
    · exact .inr hnil
    · exact absurd hends (not_endsBlockPart (.inl hword))
    · exact .inl hparted
  obtain ⟨c, hlast, hc⟩ := hparams.getLast?
  rw [hlast] at h
  obtain ⟨between', body', ts', rfl, hbetween', hparted', hbody', h⟩ := h.enclosed hbody (by decide) (by decide)
  have hparted' : parted ∨ between' = [] := by
    rcases hparted' with hnil | hends | ⟨hparted, -⟩
    · exact .inr hnil
    · exact absurd hends (not_endsBlockPart (.inr hc))
    · exact .inl hparted
  obtain ⟨d, hlast', -⟩ := hbody.getLast?
  obtain ⟨semicolons, ts', rfl, hsemicolons, h⟩ : ∃ semicolons ts'', ts' = semicolons ++ ts'' ∧
      Removable parted (front ++ gap ++ keyword :: word :: (between ++ params' ++ (between' ++ body'))) semicolons ∧
      Aligned parted (MayFollow parted)
        (front ++ gap ++ keyword :: word :: (between ++ params' ++ (between' ++ body')) ++ semicolons)
        (tail.getLast?.or body.getLast?) ts'' cur := by
    rcases htail with rfl | ⟨s, rfl, hs⟩
    · exact ⟨[], ts', rfl, .nil, by simpa using h⟩
    · obtain ⟨removed, ts'', rfl, hremoved, h⟩ := h.dropSemicolon hs
      exact ⟨removed, ts'', rfl, by simpa using hremoved, by simpa using h⟩
  have hend : (keyword :: word :: (params ++ (body ++ tail))).getLast? = tail.getLast?.or body.getLast? := by
    rw [← List.cons_append, ← List.cons_append, List.getLast?_append, List.getLast?_append, hlast']
    cases tail.getLast? <;> rfl
  refine ⟨gap ++ (keyword :: word :: (between ++ params' ++ (between' ++ body')) ++ semicolons), ts', by simp, ?_,
    fun t ht => ?_, by simpa [hend] using h⟩
  rotate_left
  · cases ht
    exact hfits.settled
  have hstart : MayStart (front ++ gap).getLast? keyword := by
    rcases hfits.opens with ⟨rfl, rfl⟩ | hopens
    · rw [List.append_nil]
      exact mayStart_of_isBlockPosition hplace
    · refine hopens.resolve_right ?_
      simp [Token.isPunct, hkeyword']
  have hbefore : Nested (front ++ gap) := hfront.append hfits.removable.nested
  refine hfits.removable.append (.declaration hbefore hstart hkeyword hword ?_ hparams' ?_ hbody' ?_ hsemicolons)
  · simpa using hbetween
  · simpa using hbetween'
  · rcases hparted with hparted | rfl
    · exact .inl hparted
    · exact hparted'.imp_right (⟨rfl, ·⟩)

theorem length_openBy {opened opened' : List Char} {t : Token} (h : openBy opened t = some opened') :
    opened'.length = depthAfter opened.length t := by
  unfold openBy at h
  unfold depthAfter
  split at h
  · rename_i hopening
    cases h
    rw [if_pos hopening, List.length_cons]
  · rename_i hopening
    rw [if_neg hopening]
    split at h
    · rename_i hclosing
      rw [if_pos hclosing]
      split at h
      · cases h
      · split at h
        · cases h
          rfl
        · cases h
    · rename_i hclosing
      cases h
      rw [if_neg hclosing]

/-- One round. -/
theorem dropUnmentioned_aligned {depth : Nat} {before : List Piece} {opened : List Char}
    (hskips : Skips parted front gap last last' cur) (hfront : openAfter [] (front ++ gap) = some opened)
    (hdepth : depth = opened.length) (hopen : openAfter opened cur = some [])
    (h : Aligned parted (MayFollow parted) (front ++ gap) last' ts cur) :
    Aligned parted (MayFollow parted) front last (gap ++ ts)
      ((dropUnmentioned before (piecesFrom depth last' cur)).flatMap Piece.tokens) := by
  fun_induction piecesFrom depth last' cur generalizing before front gap last ts opened with
  | case1 =>
    cases h with
    | done hgap => exact .done (hskips.removable.append hgap)
  | case2 depth last' t rest declared name n hdeclared =>
    rename_i declaration ih
    simp only [declared] at hdeclared
    split at hdeclared
    · rename_i hfunction
      simp only [Bool.and_eq_true, decide_eq_true_eq] at hfunction
      obtain ⟨⟨rfl, ht⟩, hplace⟩ := hfunction
      obtain rfl : opened = [] := List.length_eq_zero_iff.mp hdepth.symm
      have hrest : openAfter [] rest = some [] := by rwa [openAfter, openBy_plain (isPlain_of_isWord ht)] at hopen
      have hdeclaration : IsDeclaration declaration := isDeclaration_of_declarationLength? ht hdeclared hrest
      have hparts : t :: rest = declaration ++ rest.drop n := by rw [List.cons_append, List.take_append_drop]
      rw [hparts, openAfter_nested hdeclaration.nested] at hopen
      rw [dropUnmentioned]
      split
      · rw [List.flatMap_cons]
        rw [hparts] at hskips h
        refine .keepFront (a := declaration) (fun _ => id) hskips h fun front' gap' ts' hopen' hskips h => ?_
        rw [show declaration.getLast?.or last' = declaration.getLast? by rw [List.getLast?_cons, Option.some_or]]
          at hskips h
        rw [openAfter_append _ (front ++ gap), hfront, Option.bind_some, hdeclaration.nested] at hopen'
        exact ih hskips hopen' rfl hopen h
      · rw [hparts] at h
        obtain ⟨removed, ts', rfl, hremoved, hsettled, h⟩ := h.dropDeclaration hdeclaration hfront fun u hu => by
          cases hu
          exact hplace
        have hfollow : MayFollow parted last := by
          rcases hskips.next with ⟨-, rfl⟩ | hnext
          · exact mayFollow_of_isBlockPosition hplace ht (by decide) (hsettled t rfl)
          · refine (hnext t rfl).1.resolve_right ?_
            simp [not_semicolon_of_isWord ht]
        rw [← List.append_assoc]
        refine ih ⟨hskips.removable.append hremoved, .inr fun u _ => ?_⟩ ?_ rfl hopen (by simpa using h)
        · exact ⟨.inl hfollow, .of_endsBlockPart hdeclaration.endsBlockPart u, hfollow.settled u⟩
        · rw [← List.append_assoc]
          exact Nested.append hfront hremoved.nested
    · cases hdeclared
  | case3 depth last' t rest declared hdeclared =>
    rename_i ih
    rw [openAfter, Option.bind_eq_some_iff] at hopen
    obtain ⟨middle, hmiddle, hopen⟩ := hopen
    rw [dropUnmentioned, List.flatMap_cons]
    refine .keepFront (a := [t]) (fun _ => id) hskips h fun front' gap' ts' hopen' hskips h => ?_
    rw [openAfter_append _ (front ++ gap), hfront, Option.bind_some, openAfter, hmiddle] at hopen'
    exact ih hskips hopen' (by rw [length_openBy hmiddle, hdepth]) hopen h

theorem dropUnused_aligned (hts : Nested ts) (h : Aligned parted (MayFollow parted) [] none ts cur) :
    Aligned parted (MayFollow parted) [] none ts (dropUnused cur) := by
  fun_induction dropUnused cur with
  | case1 cur kept hshorter ih =>
    have hcur : Nested cur := by rw [Nested, ← h.openAfter_eq, hts]
    exact ih (dropUnmentioned_aligned (.refl [] none cur) Nested.nil rfl hcur h)
  | case2 cur kept hshorter => exact h

end Passes

/-! ## What is left of a script -/

/-- The tokens that are left of the tokens `ts`, which stand behind `front`: those of `ts` but for stretches that may
be left out, in their order, and semicolons. -/
inductive Leaves (parted : Prop) : (front ts kept : List Token) → Prop
  | done {front gap : List Token} (hgap : Removable parted front gap) : Leaves parted front gap []
  | keep {front gap ts kept : List Token} {t : Token} (hgap : Removable parted front gap)
      (hrest : Leaves parted (front ++ gap ++ [t]) ts kept) : Leaves parted front (gap ++ t :: ts) (t :: kept)
  | semicolon {front ts kept : List Token} {s : Token} (hs : s.isPunct ";" = true)
      (hrest : Leaves parted front ts kept) : Leaves parted front ts (s :: kept)

theorem Aligned.leaves {gaps : Option Token → Prop} {last : Option Token} {ts cur : List Token}
    (h : Aligned parted gaps front last ts cur) : Leaves parted front ts cur := by
  induction h with
  | done hgap => exact .done hgap
  | keep hfits _ ih => exact .keep hfits.removable ih
  | insert hs _ ih => exact .semicolon hs ih

theorem dropSemicolonsFrom_leaves {last : Option Token} {depth : Nat} {gap ts cur : List Token}
    (hgap : Removable parted front gap) (h : Leaves parted (front ++ gap) ts cur) :
    Leaves parted front (gap ++ ts) (dropSemicolonsFrom last depth cur) := by
  fun_induction dropSemicolonsFrom last depth cur generalizing front gap ts with
  | case1 =>
    cases h with
    | done hgap' => exact .done (hgap.append hgap')
  | case2 last depth t cur depth' hdrop =>
    rename_i ih
    simp only [Bool.and_eq_true] at hdrop
    cases h with
    | @keep _ gap' ts _ _ hgap' hrest =>
      have hremoved : Removable parted front (gap ++ (gap' ++ [t])) :=
        hgap.append (hgap'.append (.semicolon hdrop.1.1 .nil))
      simpa using ih hremoved (by simpa using hrest)
    | semicolon _ hrest => exact ih hgap hrest
  | case3 last depth t cur depth' hkeep =>
    rename_i ih
    cases h with
    | @keep _ gap' ts _ _ hgap' hrest =>
      rw [← List.append_assoc]
      exact .keep (hgap.append hgap') (ih .nil (by simpa using hrest))
    | semicolon hs hrest => exact .semicolon hs (ih hgap hrest)

theorem Leaves.sublist {ts kept : List Token} (h : Leaves parted front ts kept) :
    (kept.filter (!·.isPunct ";")).Sublist (ts.filter (!·.isPunct ";")) := by
  induction h with
  | done => exact List.nil_sublist _
  | @keep _ gap ts kept t _ _ ih =>
    rw [List.filter_append]
    refine .trans ?_ (List.sublist_append_right _ _)
    rw [← List.singleton_append, ← List.singleton_append (l := ts), List.filter_append, List.filter_append]
    exact ih.append_left _
  | semicolon hs _ ih => rwa [List.filter_cons_of_neg (by simp [hs])]

/-- The passes keep the tokens of a script but for whole calls and declarations. -/
theorem shorten_leaves (options : Options) {ts : List Token} (hts : Nested ts) :
    Leaves (options.minifyWhitespace = false) [] ts (shorten options ts) := by
  have hinserted : Aligned (options.minifyWhitespace = false) (fun _ => False) [] none ts
      (if options.minifyWhitespace then insertSemicolons ts else ts) := by
    split
    · exact insertSemicolons_aligned fun t _ => ⟨.inl rfl, by simp [Settled]⟩
    · rename_i hoff
      exact .refl (by simpa using hoff) rfl ts
  unfold shorten
  dsimp only
  generalize (if options.minifyWhitespace then insertSemicolons ts else ts) = inserted at hinserted ⊢
  have hcalls : Aligned (options.minifyWhitespace = false) (MayFollow (options.minifyWhitespace = false)) [] none ts
      (if options.dropConsole then dropConsole inserted else inserted) := by
    split
    · have hnested : Nested inserted := by rw [Nested, ← hinserted.openAfter_eq, hts]
      exact dropConsoleFrom_aligned hnested (.refl [] none inserted) hinserted
    · exact hinserted.mono fun _ => False.elim
  generalize (if options.dropConsole then dropConsole inserted else inserted) = called at hcalls ⊢
  have hshaken : Aligned (options.minifyWhitespace = false) (MayFollow (options.minifyWhitespace = false)) [] none ts
      (if options.treeShake then dropUnused called else called) := by
    split
    · exact dropUnused_aligned hts hcalls
    · exact hcalls
  split
  · exact dropSemicolonsFrom_leaves .nil hshaken.leaves
  · exact hshaken.leaves

/-- **What is left of a script.** Semicolons aside, the tokens that are written out are tokens of the script in their
order, their brackets are nested, and each stretch that is missing is made up of whole console calls and whole function
declarations outside all brackets. Only where line breaks are kept can such a stretch part a declaration. -/
theorem rendered_tokens_are_left {script : String} {ts : List Token} (options : Options)
    (h : tokenize script = .ok ts) :
    (minify options script).code = render options.minifyWhitespace (shorten options ts) ∧
      Leaves (options.minifyWhitespace = false) [] ts (shorten options ts) ∧
      ((shorten options ts).filter (!·.isPunct ";")).Sublist (ts.filter (!·.isPunct ";")) ∧
      Nested (shorten options ts) := by
  have hts : Nested ts := (scans_of_tokensFrom h).openAfter
  have hleaves := shorten_leaves options hts
  exact ⟨by rw [minify, h], hleaves, hleaves.sublist, (shorten_edited options ts).nested hts⟩

/-- A function that nothing uses and a console call, each on a line of its own. -/
def idleScript : String := "function f()\x7breturn 1\x7d\nconsole.log(2)\nreturn 3"

/-- The texts that are kept of it. -/
def idleKept : {texts // (tokenize idleScript).map (fun ts => (shorten (.forEmbedding true) ts).map Token.text) =
    .ok texts} := ⟨["return", "3"], by decide +kernel⟩

theorem idle_tokens_left_out :
    ∃ ts, tokenize idleScript = .ok ts ∧ (shorten (.forEmbedding true) ts).map Token.text = ["return", "3"] ∧
      (minify (.forEmbedding true) idleScript).code = render true (shorten (.forEmbedding true) ts) ∧
      Leaves (true = false) [] ts (shorten (.forEmbedding true) ts) ∧
      ((shorten (.forEmbedding true) ts).filter (!·.isPunct ";")).Sublist (ts.filter (!·.isPunct ";")) ∧
      Nested (shorten (.forEmbedding true) ts) := by
  obtain ⟨ts, hts, hkept⟩ := AliasLang.Token.map_eq_ok idleKept.2
  exact ⟨ts, hts, hkept, rendered_tokens_are_left (.forEmbedding true) hts⟩

/-- No call starts here, and no declaration whose parts stand together. -/
theorem not_removable {keyword name t : Token} {rest : List Token} (hsemicolon : keyword.isPunct ";" = false)
    (hconsole : keyword.isWord "console" = false) (ht : t.isPunct "(" = false) :
    ¬Removable False front (keyword :: name :: t :: rest) := by
  intro h
  generalize hall : keyword :: name :: t :: rest = all at h
  cases h with
  | nil => cases hall
  | semicolon hs =>
    cases hall
    simp [hs] at hsemicolon
  | call hcall =>
    obtain ⟨object, dot, method, args, rfl, hobject, -⟩ := hcall
    cases hall
    simp [hobject] at hconsole
  | declaration _ _ _ _ _ hparams _ _ hparted =>
    obtain ⟨rfl, rfl⟩ := hparted.resolve_left id
    obtain ⟨o, inner, c, rfl, ho, -⟩ := hparams
    cases hall
    simp [ho] at ht

/-- A console call between the name of a function and its parameters, on lines of their own. -/
def partedScript : String := "function f\nconsole.log(1)\n()\x7b\x7d"

/-- Console calls and then unused functions are left out, and line breaks stay. -/
def partingOptions : Options := ⟨true, false, false, false, true⟩

/-- The call goes, and then the function whose parts it stood between. -/
theorem call_parts_removed_declaration :
    ∃ ts, tokenize partedScript = .ok ts ∧ shorten partingOptions ts = [] ∧
      ¬Leaves False [] ts (shorten partingOptions ts) := by
  have heval : (tokenize partedScript).map (fun ts => (shorten partingOptions ts, ts.take 3)) =
      .ok ([], [⟨.word, "function", ⟨0, 0, 0⟩, false, false⟩, ⟨.word, "f", ⟨9, 0, 9⟩, false, false⟩,
        ⟨.word, "console", ⟨11, 1, 0⟩, true, false⟩]) := by decide +kernel
  obtain ⟨ts, hts, hvalues⟩ := AliasLang.Token.map_eq_ok heval
  obtain ⟨hkept, hfront⟩ := Prod.mk.inj hvalues
  refine ⟨ts, hts, hkept, fun h => ?_⟩
  rw [hkept] at h
  cases h with
  | done hremoved =>
    rw [← List.take_append_drop 3 ts, hfront] at hremoved
    exact not_removable (by decide) (by decide) (by decide) hremoved

end AliasLang.Script
