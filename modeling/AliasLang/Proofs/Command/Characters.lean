/-
Characters of generated commands. Around the texts of a program the compiler writes printable ASCII, and quoting adds
quotes, backslashes and marks of that kind. For every other kind of characters, and for the bar as long as no key is
deleted, a command holds such a character if and only if one of the texts that it is made from does.
-/
import AliasLang.Command.Compile
import Mathlib.Data.List.Basic
import Mathlib.Data.List.GetD

namespace AliasLang.Text

/-- No character of the text is of the kind `p`. -/
def Lacks (p : Char → Bool) (s : String) : Prop := ∀ c ∈ s.toList, p c = false

variable {p : Char → Bool}

theorem lacks_append {a b : String} : Lacks p (a ++ b) ↔ Lacks p a ∧ Lacks p b := by
  simp only [Lacks, String.toList_append, List.forall_mem_append]

theorem lacks_join {texts : List String} : Lacks p (String.join texts) ↔ ∀ s ∈ texts, Lacks p s := by
  simp only [Lacks, String.toList_join, List.forall_mem_flatMap]

theorem lacks_intercalate {sep : String} (hsep : Lacks p sep) : ∀ {texts : List String},
    Lacks p (sep.intercalate texts) ↔ ∀ s ∈ texts, Lacks p s
  | [] => by simp [Lacks]
  | [s] => by simp
  | s :: next :: texts => by
    rw [String.intercalate_cons_cons, lacks_append, lacks_append, lacks_intercalate hsep, and_iff_left hsep,
      ← List.forall_mem_cons]

end AliasLang.Text

namespace AliasLang.Command

open Text (Lacks lacks_append lacks_join lacks_intercalate)

/-! ## What the compiler writes itself -/

/-- A printable character of ASCII other than the bar. -/
def isOwnChar (c : Char) : Bool := ' ' ≤ c && c ≤ '~' && c ≠ '|'

/-- Characters of the kind `p` come from texts of the program only. -/
def Foreign (p : Char → Bool) : Prop := ∀ c, isOwnChar c = true → p c = false

variable {p : Char → Bool}

theorem Foreign.lacks (hp : Foreign p) {s : String} (h : s.toList.all isOwnChar = true) : Lacks p s :=
  fun c hc => hp c (List.all_eq_true.mp h c hc)

theorem lacks_pipeline (hp : Foreign p) {marker : String} (hmarker : Lacks p marker) {commands : List String} :
    Lacks p (pipeline marker commands) ↔ ∀ c ∈ commands, Lacks p c := by
  have hspace : Lacks p " " := hp.lacks (by decide)
  have hhead : Lacks p "pipe _char:" := hp.lacks (by decide)
  have hspaced : Lacks p (" " ++ marker ++ " ") := by
    rw [lacks_append, lacks_append]
    exact ⟨⟨hspace, hmarker⟩, hspace⟩
  rw [pipeline, lacks_append, lacks_append, lacks_append, lacks_intercalate hspaced]
  exact and_iff_right ⟨⟨hhead, hmarker⟩, hspace⟩

/-- Drawn markers are letters and digits. -/
theorem lacks_drawn (hp : Foreign p) (number : Nat) : Lacks p (Marker.drawn number) := by
  have halphabet : Marker.drawnAlphabet.all isOwnChar = true := by decide
  intro c hc
  simp only [Marker.drawn, String.toList_ofList, List.mem_map] at hc
  obtain ⟨i, -, rfl⟩ := hc
  -- The index is below the length of the alphabet, so the default is not taken.
  have hbound := Nat.mod_lt (number / Nat.pow Marker.drawnAlphabet.length i)
    (by decide : 0 < Marker.drawnAlphabet.length)
  rw [List.getD_eq_getElem _ _ hbound]
  exact hp _ (List.all_eq_true.mp halphabet _ (List.getElem_mem hbound))

/-! ## Quoted texts -/

theorem lacks_key (hp : Foreign p) {s : String} : Lacks p (Quoting.key s) ↔ Lacks p s := by
  have hchar : ∀ c, (∀ d ∈ Quoting.keyChar c, p d = false) ↔ p c = false := by
    intro c
    unfold Quoting.keyChar
    split
    · rename_i hc
      subst hc
      simp [hp '"' (by decide), hp '\\' (by decide)]
    · exact List.forall_mem_singleton
  simp only [Lacks, Quoting.key, Quoting.substitute, String.toList_ofList, List.forall_mem_flatMap, hchar]

theorem foreign_parameterChar (hp : Foreign p) {c d : Char} (hc : p c = false) (h : d ∈ Quoting.parameterChar c) :
    p d = false := by
  unfold Quoting.parameterChar at h
  split at h
  · obtain rfl : d = '\\' := by simpa using h
    exact hp _ (by decide)
  split at h
  · rcases List.mem_cons.mp h with rfl | h
    · exact hp _ (by decide)
    · rw [List.mem_singleton.mp h]
      exact hp _ (by decide)
  split at h
  · cases h
  · rwa [List.mem_singleton.mp h]

theorem foreign_embeddedChar (hp : Foreign p) {c d : Char} (hc : p c = false) (h : d ∈ Quoting.embeddedChar c) :
    p d = false := by
  unfold Quoting.embeddedChar at h
  split at h
  · rcases List.mem_cons.mp h with rfl | h
    · exact hp _ (by decide)
    · rw [List.mem_singleton.mp h]
      exact hp _ (by decide)
  · exact foreign_parameterChar hp hc h

/-- Breaking options apart adds quotes and a plus sign only. -/
theorem foreign_neutralizeFrom (hp : Foreign p) {d : Char} : ∀ {cs : List Char} {last : Option Char},
    (∀ c ∈ cs, p c = false) → d ∈ Quoting.neutralizeFrom last cs → p d = false
  | [], _, _, h => by cases h
  | c :: cs, last, hcs, h => by
    rw [List.forall_mem_cons] at hcs
    rw [Quoting.neutralizeFrom, List.mem_append] at h
    rcases h with h | h
    · split at h
      · have hown : isOwnChar d = true :=
          List.all_eq_true.mp (by decide : ['\x27', '+', '\x27', ':'].all isOwnChar = true) d h
        exact hp d hown
      · rw [List.mem_singleton.mp h]
        exact hcs.1
    · exact foreign_neutralizeFrom hp hcs.2 h

theorem lacks_parameter (hp : Foreign p) {code : String} (h : Lacks p code) : Lacks p (Quoting.parameter code) := by
  intro d hd
  rw [Quoting.parameter, Quoting.substitute, String.toList_ofList] at hd
  obtain ⟨c, hc, hdc⟩ := List.mem_flatMap.mp hd
  exact foreign_parameterChar hp (h c hc) hdc

/-- An embedded pipeline has the characters that its own are embedded as. -/
theorem lacks_embedded_of (hp : Foreign p) {pipeline : String}
    (h : ∀ c ∈ pipeline.toList, ∀ d ∈ Quoting.embeddedChar c, p d = false) : Lacks p (Quoting.embedded pipeline) := by
  intro d hd
  rw [Quoting.embedded, String.toList_ofList] at hd
  refine foreign_neutralizeFrom hp (fun c hc => ?_) hd
  obtain ⟨b, hb, hcb⟩ := List.mem_flatMap.mp hc
  refine h b ?_ c hcb
  unfold Quoting.withoutPipe at hb
  dsimp only at hb
  split at hb
  · exact List.mem_of_mem_drop hb
  · exact hb

theorem lacks_embedded (hp : Foreign p) {pipeline : String} (h : Lacks p pipeline) :
    Lacks p (Quoting.embedded pipeline) :=
  lacks_embedded_of hp fun c hc _ hd => foreign_embeddedChar hp (h c hc) hd

/-! ## Script commands -/

variable (scope : Scope)

theorem lacks_scriptCommand (hp : Foreign p) {code : String} : Lacks p (scriptCommand scope code) ↔ Lacks p code := by
  have hword : Lacks p ("js " ++ (if scope.errorInfo then "errorInfo:true " else "") ++ "function:\"") := by
    cases scope.errorInfo with
    | true => exact hp.lacks (by decide)
    | false => exact hp.lacks (by decide)
  have hend : Lacks p "\"" := hp.lacks (by decide)
  rw [scriptCommand, lacks_append, lacks_append, and_iff_left hend, and_iff_right hword]

theorem lacks_keyLiteral (hp : Foreign p) {key : String} : Lacks p (keyLiteral key) ↔ Lacks p key := by
  have hquote : Lacks p "\\\"" := hp.lacks (by decide)
  rw [keyLiteral, lacks_append, lacks_append, and_iff_left hquote, and_iff_right hquote, lacks_key hp]

/-- A key between two texts of its command. -/
theorem lacks_around (hp : Foreign p) {before after key : String} (hbefore : Lacks p before) :
    Lacks p (scriptCommand scope (before ++ keyLiteral key ++ after)) ↔ Lacks p key ∧ Lacks p after := by
  rw [lacks_scriptCommand scope hp, lacks_append, lacks_append, lacks_keyLiteral hp, and_iff_right hbefore]

theorem lacks_retrieveCommand (hp : Foreign p) {key : String} : Lacks p (retrieveCommand scope key) ↔ Lacks p key := by
  rw [retrieveCommand, lacks_around scope hp (hp.lacks (by decide)), and_iff_left (hp.lacks (by decide))]

theorem lacks_storeCommand (hp : Foreign p) {key : String} : Lacks p (storeCommand scope key) ↔ Lacks p key := by
  rw [storeCommand, lacks_around scope hp (hp.lacks (by decide)), and_iff_left (hp.lacks (by decide))]

theorem lacks_literalCommand (hp : Foreign p) {embedded : String} :
    Lacks p (literalCommand scope embedded) ↔ Lacks p embedded := by
  have hopen : Lacks p " '" := hp.lacks (by decide)
  have hclose : Lacks p "' " := hp.lacks (by decide)
  rw [literalCommand, lacks_scriptCommand scope hp, lacks_append, lacks_append, and_iff_left hclose,
    and_iff_right hopen]

theorem lacks_storeLiteralCommand (hp : Foreign p) {key embedded : String} :
    Lacks p (storeLiteralCommand scope key embedded) ↔ Lacks p key ∧ Lacks p embedded := by
  have hsame : storeLiteralCommand scope key embedded =
      scriptCommand scope (" customData.set(" ++ keyLiteral key ++ (",'" ++ (embedded ++ "') "))) := by
    simp only [storeLiteralCommand, String.append_assoc]
  have hopen : Lacks p ",'" := hp.lacks (by decide)
  have hclose : Lacks p "') " := hp.lacks (by decide)
  rw [hsame, lacks_around scope hp (hp.lacks (by decide)), lacks_append, lacks_append, and_iff_left hclose,
    and_iff_right hopen]

theorem lacks_deletions (hp : Foreign p) {keys : List String} :
    Lacks p (String.join (keys.map fun key => "customData.set(" ++ keyLiteral key ++ ",undefined);")) ↔
      ∀ key ∈ keys, Lacks p key := by
  have hset : Lacks p "customData.set(" := hp.lacks (by decide)
  have hundefined : Lacks p ",undefined);" := hp.lacks (by decide)
  simp only [lacks_join, List.forall_mem_map, lacks_append, lacks_keyLiteral hp, hset, hundefined, true_and, and_true]

end AliasLang.Command
