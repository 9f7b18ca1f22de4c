/-
What writing a file changes. A file is written into a directory that exists, so no directory comes to be or goes: the
only path that can be read differently afterwards is one that leads to the file. A path through the file, which led
nowhere before, still leads nowhere.
-/
import AliasLang.Files

namespace AliasLang.Files

variable {home : List String}

/-! ## Directories -/

theorem isDirectory_iff {fs : Files home} {names : List String} : fs.isDirectory names = true ↔
    names = [] ∨ (∃ path ∈ fs.directories, names <+: path) ∨ ∃ file ∈ fs.files, names <+: file.1 ∧ names ≠ file.1 := by
  simp [isDirectory, or_assoc]

/-- Everything on the way to a directory is one. -/
theorem isDirectory_of_isPrefix {fs : Files home} {m n : List String} (h : m <+: n) (hn : fs.isDirectory n = true) :
    fs.isDirectory m = true := by
  rw [isDirectory_iff] at hn ⊢
  rcases hn with rfl | ⟨path, hpath, hn⟩ | ⟨file, hfile, hn, hne⟩
  · exact .inl (List.prefix_nil.mp h)
  · exact .inr (.inl ⟨path, hpath, h.trans hn⟩)
  · refine .inr (.inr ⟨file, hfile, h.trans hn, ?_⟩)
    rintro rfl
    exact hne (hn.eq_of_length_le h.length_le)

theorem isDirectory_dropLast {fs : Files home} {names : List String} (h : fs.isDirectory names = true) :
    fs.isDirectory names.dropLast = true := isDirectory_of_isPrefix (List.dropLast_prefix names) h

/-! ## Walks -/

/-- A walk of at least one step ends at a place in a directory. -/
theorem walk_reached {fs : Files home} {names : List String} : ∀ {here place : List String},
    (names = [] → fs.isDirectory here.dropLast = true) → fs.walk here names = .ok place →
      fs.isDirectory place.dropLast = true := by
  induction names with
  | nil =>
    intro here place hhere h
    rw [walk] at h
    cases h
    exact hhere rfl
  | cons name rest ih =>
    intro here place _ h
    simp only [walk] at h
    split at h
    · cases h
    split at h
    · cases h
    rename_i hdir
    have hdir : fs.isDirectory here = true := by simpa using hdir
    split at h
    · exact ih (fun _ => isDirectory_dropLast hdir) h
    split at h
    · exact ih (fun _ => isDirectory_dropLast (isDirectory_dropLast hdir)) h
    split at h
    · cases h
    · refine ih (fun _ => ?_) h
      rw [List.dropLast_concat]
      exact hdir

theorem namesOf_ne_nil (path : String) : namesOf path ≠ [] := by
  rw [namesOf, ne_eq, List.map_eq_nil_iff]
  cases path.toList with
  | nil => simp [Text.pieces]
  | cons c cs =>
    rw [Text.pieces]
    split
    · simp
    · split <;> simp

theorem locate_reached {fs : Files home} {path : String} {place : List String} (h : fs.locate path = .ok place) :
    fs.isDirectory place.dropLast = true := by
  unfold locate at h
  cases hpath : checkPath path with
  | error e =>
    rw [hpath] at h
    cases h
  | ok u =>
    rw [hpath] at h
    exact walk_reached (fun hnil => absurd hnil (namesOf_ne_nil path)) h

/-! ## Putting a file into a directory -/

theorem lookup_filter_ne {files : List (List String × ByteArray)} {names other : List String} (h : other ≠ names) :
    (files.filter (·.1 ≠ names)).lookup other = files.lookup other := by
  induction files with
  | nil => rfl
  | cons file files ih =>
    by_cases hfile : file.1 = names
    · have hne : (other == file.1) = false := by simpa [hfile] using h
      rw [List.filter_cons_of_neg (by simpa using hfile), ih, List.lookup_cons, hne]
    · rw [List.filter_cons_of_pos (by simpa using hfile), List.lookup_cons, List.lookup_cons, ih]

theorem file?_put (fs : Files home) (names other : List String) (content : ByteArray) :
    (fs.put names content).file? other = if other = names then some content else fs.file? other := by
  unfold file? put
  by_cases h : other = names
  · simp [h]
  · have hne : (other == names) = false := by simpa using h
    rw [if_neg h, List.lookup_cons, hne]
    exact lookup_filter_ne h

theorem isPrefix_dropLast {m n : List String} (h : m <+: n) (hne : m ≠ n) : m <+: n.dropLast := by
  have hlt : m.length < n.length := Nat.lt_of_le_of_ne h.length_le fun hlen => hne (h.eq_of_length hlen)
  refine List.prefix_of_prefix_length_le h (List.dropLast_prefix n) ?_
  rw [List.length_dropLast]
  omega

section

variable {fs : Files home} {names : List String} (hparent : fs.isDirectory names.dropLast = true) (content : ByteArray)

include hparent

theorem isDirectory_put (other : List String) : (fs.put names content).isDirectory other = fs.isDirectory other := by
  rw [Bool.eq_iff_iff]
  constructor
  · intro h
    rcases isDirectory_iff.mp h with rfl | hdir | ⟨file, hfile, hother, hne⟩
    · rfl
    · exact isDirectory_iff.mpr (.inr (.inl hdir))
    · rcases List.mem_cons.mp hfile with rfl | hfile
      · exact isDirectory_of_isPrefix (isPrefix_dropLast hother hne) hparent
      · exact isDirectory_iff.mpr (.inr (.inr ⟨file, (List.mem_filter.mp hfile).1, hother, hne⟩))
  · intro h
    rw [isDirectory_iff] at h ⊢
    rcases h with rfl | hdir | ⟨file, hfile, hother, hne⟩
    · exact .inl rfl
    · exact .inr (.inl hdir)
    · by_cases hsame : file.1 = names
      · exact .inr (.inr ⟨(names, content), List.mem_cons_self, hsame ▸ hother, hsame ▸ hne⟩)
      · have hkept : file ∈ fs.files.filter (·.1 ≠ names) := List.mem_filter.mpr ⟨hfile, by simpa using hsame⟩
        exact .inr (.inr ⟨file, List.mem_cons_of_mem _ hkept, hother, hne⟩)

variable (hfile : fs.isDirectory names = false)

include hfile

/-- A walk leads to the same place, or nowhere as before. -/
theorem walk_put (steps : List String) : ∀ here : List String,
    ((fs.put names content).walk here steps).toOption = (fs.walk here steps).toOption := by
  induction steps with
  | nil => exact fun here => rfl
  | cons name rest ih =>
    intro here
    simp only [walk, file?_put, isDirectory_put hparent content]
    by_cases hhere : here = names
    · -- No walk goes through the file, nor did one where it was not.
      subst hhere
      rw [if_pos rfl, if_pos (by rfl)]
      simp only [hfile]
      split <;> rfl
    · rw [if_neg hhere]
      split
      · rfl
      split
      · rfl
      split
      · exact ih _
      split
      · exact ih _
      split
      · rfl
      · exact ih _

theorem locate_put (path : String) :
    ((fs.put names content).locate path).toOption = (fs.locate path).toOption := by
  unfold locate
  cases checkPath path with
  | error e => rfl
  | ok u => exact walk_put hparent content hfile _ _

end

/-! ## Reading after writing -/

theorem toOption_read (fs : Files home) (path : String) :
    (fs.read path).toOption = (fs.locate path).toOption.bind fs.file? := by
  unfold read
  cases fs.locate path with
  | error e => rfl
  | ok names =>
    simp only [bind, Except.bind, Except.toOption, Option.bind_some]
    cases fs.file? names <;> rfl

/-- A file can be written at a path that leads to a place which is no directory, and that does not end with a slash. -/
theorem target_eq_ok_iff {fs : Files home} {path : String} {names : List String} : fs.target path = .ok names ↔
    (namesOf path).getLast? ≠ some "" ∧ fs.locate path = .ok names ∧ fs.isDirectory names = false := by
  unfold target
  dsimp only
  by_cases hslash : (namesOf path).getLast? = some ""
  · rw [if_pos hslash]
    refine iff_of_false (fun h => ?_) fun h => h.1 hslash
    simp only [bind, Except.bind] at h
    split at h
    · cases h
    · split at h <;> cases h
  · rw [if_neg hslash]
    cases fs.locate path with
    | error e => exact iff_of_false (fun h => by cases h) fun h => by cases h.2.1
    | ok place =>
      show (if fs.isDirectory place then Except.error FileError.isDirectory else .ok place) = _ ↔ _
      cases hdir : fs.isDirectory place with
      | true =>
        refine iff_of_false (fun h => by cases h) ?_
        rintro ⟨-, hplace, hfile⟩
        cases hplace
        rw [hdir] at hfile
        cases hfile
      | false =>
        constructor
        · intro h
          cases h
          exact ⟨hslash, rfl, hdir⟩
        · exact fun h => h.2.1

/-- The file at the path has the content, and nothing else has changed: no other file, no directory, and nothing that can
be read at a path to another place. Only the reason why a path leads nowhere can be another one. -/
structure Wrote (before after : Files home) (path : String) (content : ByteArray) : Prop where
  file : ∃ names, before.locate path = .ok names ∧
    ∀ other, after.file? other = if other = names then some content else before.file? other
  directories : ∀ names, after.isDirectory names = before.isDirectory names
  readBack : after.read path = .ok content
  others : ∀ other, before.locate other ≠ before.locate path →
    (after.read other).toOption = (before.read other).toOption

theorem eq_ok_of_toOption {ε α : Type} {r : Except ε α} {a : α} (h : r.toOption = some a) : r = .ok a := by
  cases r with
  | error e => cases h
  | ok b =>
    cases h
    rfl

theorem wrote_of_write {before after : Files home} {path : String} {content : ByteArray}
    (h : before.write path content = .ok after) : Wrote before after path content := by
  unfold write at h
  cases htarget : before.target path with
  | error e =>
    rw [htarget] at h
    cases h
  | ok names =>
    rw [htarget] at h
    cases h
    obtain ⟨-, hplace, hfile⟩ := target_eq_ok_iff.mp htarget
    have hparent : before.isDirectory names.dropLast = true := locate_reached hplace
    refine ⟨⟨names, hplace, fun other => file?_put before names other content⟩, isDirectory_put hparent content, ?_, ?_⟩
    · apply eq_ok_of_toOption
      rw [toOption_read, locate_put hparent content hfile, hplace]
      show (before.put names content).file? names = some content
      rw [file?_put, if_pos rfl]
    · intro other hother
      rw [toOption_read, toOption_read, locate_put hparent content hfile]
      cases hlocate : before.locate other with
      | error e => rfl
      | ok here =>
        have hne : here ≠ names := by
          rintro rfl
          exact hother (hlocate.trans hplace.symm)
        show (before.put names content).file? here = before.file? here
        rw [file?_put, if_neg hne]

/-- A text that was written is read as it is. -/
theorem readText_of_read {fs : Files home} {path text : String} (h : fs.read path = .ok text.toUTF8) :
    fs.readText path = .ok text := by
  have hdecode : String.fromUTF8? text.toUTF8 = some text := dif_pos text.isValidUTF8
  unfold readText
  rw [h]
  simp only [bind, Except.bind, hdecode]

end AliasLang.Files
