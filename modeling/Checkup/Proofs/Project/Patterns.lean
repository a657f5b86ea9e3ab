import Checkup.Proofs.Project.Workspaces
import Checkup.Proofs.Scan.Files
import Checkup.Proofs.Tree.NormalForm

/-!
# What workspace patterns mean

A pattern names a directory, or with a star or two as its last segment the directories in one. It is
read from its spelling: what stands around it is trimmed, a `./` before it is dropped, and the star is
split off.

* `Means`: the spellings of a pattern and what they mean.
* `selection?_of_means`: how such a pattern is read.
-/

namespace Checkup.Workspaces

/-- A pattern without the blanks and slashes around it. -/
def trimmed (pattern : String) : String := Text.trim (· == '/') (Text.trimBlank pattern)

/-- A pattern without a `./` before it. -/
def undotted (pattern : String) : String :=
  if Text.startsWith pattern "./" then String.ofList (pattern.toList.drop 2) else pattern

theorem selection?_eq (pattern : String) : selection? pattern =
    if trimmed pattern = "" || Text.startsWith (trimmed pattern) "!" then none
    else some (splitWildcard (undotted (trimmed pattern))) := rfl

/-- A segment of a pattern that is the name of a directory. -/
structure IsSegment (name : String) : Prop where
  step : Path.IsStep name
  ne_up : name ≠ ".."
  no_star : '*' ∉ name.toList
  no_nul : '\x00' ∉ name.toList
  short : name.utf8ByteSize ≤ Tree.maxNameBytes

/-- What a pattern is about: nothing, a directory, or the directories in one. A directory is given by
the names on the way to it. -/
inductive Meaning
  | nothing
  | directory (names : List String)
  | inside (names : List String)

/-- The last segments that stand for all directories in one. -/
def stars : List String := ["*", "**"]

/-- What a trimmed pattern means. -/
inductive Means : String → Meaning → Prop
  | empty : Means "" .nothing
  | negated {text : String} (h : Text.startsWith text "!" = true) : Means text .nothing
  | directory {dot : String} {names : List String} (hdot : dot ∈ ["", "./"]) (hne : names ≠ [])
    (hnames : ∀ name ∈ names, IsSegment name)
    (hplain : Text.startsWith (dot ++ Text.joinWith "/" names) "!" = false) :
    Means (dot ++ Text.joinWith "/" names) (.directory names)
  | inside {dot star : String} {names : List String} (hdot : dot ∈ ["", "./"]) (hstar : star ∈ stars)
    (hnames : ∀ name ∈ names, IsSegment name)
    (hplain : Text.startsWith (dot ++ Text.joinWith "/" (names ++ [star])) "!" = false) :
    Means (dot ++ Text.joinWith "/" (names ++ [star])) (.inside names)

/-! ## Splitting the star off -/

theorem endsWith_iff {text part : List Char} : Text.endsWith text part = true ↔ part <:+ text := by
  unfold Text.endsWith
  rw [List.isPrefixOf_iff_prefix, List.reverse_prefix]

theorem splitWildcard_of_no_star {text : String} (h : '*' ∉ text.toList) :
    splitWildcard text = ⟨text, false⟩ := by
  have hnone : wildcards.find? (fun ending => Text.endsWith text.toList ending.toList) = none := by
    have hstars : ∀ ending ∈ wildcards, '*' ∈ ending.toList := by decide
    rw [List.find?_eq_none]
    intro ending hending hends
    exact h ((endsWith_iff.mp hends).mem (hstars ending hending))
  unfold splitWildcard
  rw [hnone]

/-- The endings that are tried before the one that a star after a slash is split off by. -/
theorem find?_wildcards {base star : String} (hstar : star ∈ stars) :
    wildcards.find? (fun ending => Text.endsWith (base ++ "/" ++ star).toList ending.toList) =
      some ("/" ++ star) := by
  have hends : ("/" ++ star).toList <:+ (base ++ "/" ++ star).toList := by
    have htext : (base ++ ("/" ++ star)).toList = base.toList ++ ("/" ++ star).toList :=
      String.toList_append
    rw [String.append_assoc, htext]
    exact List.suffix_append _ _
  rcases List.mem_pair.mp hstar with rfl | rfl
  · have hlonger : ¬ "/**".toList <:+ (base ++ "/" ++ "*").toList := by
      intro hsuffix
      have hshort := List.suffix_of_suffix_length_le hends hsuffix (by decide)
      exact absurd hshort (by decide)
    unfold wildcards
    rw [List.find?_cons_of_neg (by rwa [endsWith_iff]), List.find?_cons_of_pos (by rwa [endsWith_iff])]
    rfl
  · unfold wildcards
    rw [List.find?_cons_of_pos (by rwa [endsWith_iff])]
    rfl

theorem dropTrailing_of_last {p : Char → Bool} {text : List Char}
    (h : ∀ c ∈ text.getLast?, p c = false) : Text.dropTrailing p text = text := by
  unfold Text.dropTrailing
  cases hr : text.reverse with
  | nil => rw [List.dropWhile_nil, ← hr, List.reverse_reverse]
  | cons c rest =>
    have hc : p c = false := h c (by rw [← List.head?_reverse, hr]; rfl)
    rw [List.dropWhile_cons_of_neg (by rw [hc]; exact Bool.false_ne_true), ← hr, List.reverse_reverse]

/-- What stands before an ending. -/
theorem take_before (base ending : String) :
    (base ++ ending).toList.take ((base ++ ending).length - ending.length) = base.toList := by
  have hlength : (base ++ ending).length - ending.length = base.toList.length := by
    rw [String.length_append, Nat.add_sub_cancel, String.length_toList]
  rw [hlength, String.toList_append, List.take_left]

theorem splitWildcard_star {base star : String} (hstar : star ∈ stars)
    (hbase : ∀ c ∈ base.toList.getLast?, (c == '/') = false) :
    splitWildcard (base ++ "/" ++ star) = ⟨base, true⟩ := by
  have htake := take_before base ("/" ++ star)
  rw [← String.append_assoc] at htake
  unfold splitWildcard
  rw [find?_wildcards hstar]
  dsimp only
  rw [htake, dropTrailing_of_last hbase, String.ofList_toList]

/-! ## Reading spelled patterns -/

theorem mem_joinWith {names : List String} {c : Char} (hc : c ≠ '/')
    (h : c ∈ (Text.joinWith "/" names).toList) : ∃ name ∈ names, c ∈ name.toList := by
  induction names with
  | nil => cases h
  | cons name rest ih =>
    cases rest with
    | nil => exact ⟨name, List.mem_singleton_self name, h⟩
    | cons next more =>
      rw [Text.joinWith, String.toList_append, String.toList_append, List.mem_append,
        List.mem_append] at h
      rcases h with (h | h) | h
      · exact ⟨name, List.mem_cons_self .., h⟩
      · exact absurd (List.mem_singleton.mp h) hc
      · obtain ⟨other, hother, h⟩ := ih h
        exact ⟨other, List.mem_cons_of_mem name hother, h⟩

theorem last_joinWith {names : List String} (h : ∀ name ∈ names, Path.IsStep name) :
    ∀ c ∈ (Text.joinWith "/" names).toList.getLast?, (c == '/') = false := by
  intro c hc
  rcases List.eq_nil_or_concat' names with rfl | ⟨up, name, rfl⟩
  · cases hc
  · have hname := h name (List.mem_append_right up (List.mem_singleton_self name))
    have hchars : name.toList ≠ [] := fun hnil => hname.ne_empty (String.toList_eq_nil_iff.mp hnil)
    obtain ⟨more, hmore⟩ := Text.suffix_joinWith "/" (List.getLast?_concat (l := up) (a := name))
    rw [← hmore, List.getLast?_append_of_ne_nil _ hchars] at hc
    refine beq_eq_false_iff_ne.mpr ?_
    rintro rfl
    exact hname.no_slash (List.mem_of_getLast? hc)

/-- The first segment is no `.`, so there is no other `./` to drop. -/
theorem undotted_joinWith {dot : String} (hdot : dot ∈ ["", "./"]) {names : List String}
    (hne : names ≠ []) (h : ∀ name ∈ names, Path.IsStep name) :
    undotted (dot ++ Text.joinWith "/" names) = Text.joinWith "/" names := by
  unfold undotted
  rcases List.mem_pair.mp hdot with rfl | rfl
  · rw [String.empty_append, if_neg]
    intro hstart
    unfold Text.startsWith at hstart
    obtain ⟨rest, hrest⟩ := List.isPrefixOf_iff_prefix.mp hstart
    have htext : "." ++ "/" ++ String.ofList rest = Text.joinWith "/" names := by
      rw [← String.toList_inj, ← hrest]
      simp
    have hpieces := Path.pieces_joinWith hne fun name hname => (h name hname).no_slash
    rw [← htext, Path.pieces_append_slash] at hpieces
    have hhere : "." ∈ names := by
      rw [← hpieces]
      exact List.mem_cons_self ..
    exact (h "." hhere).ne_here rfl
  · have hstart : Text.startsWith ("./" ++ Text.joinWith "/" names) "./" = true := by
      unfold Text.startsWith
      rw [String.toList_append, List.isPrefixOf_iff_prefix]
      exact List.prefix_append _ _
    rw [if_pos hstart, String.toList_append]
    exact String.ofList_toList

theorem spelled_ne_empty {dot : String} (hdot : dot ∈ ["", "./"]) {names : List String}
    (hne : names ≠ []) (h : ∀ name ∈ names, Path.IsStep name) : dot ++ Text.joinWith "/" names ≠ "" := by
  intro hempty
  have hundotted := undotted_joinWith hdot hne h
  rw [hempty] at hundotted
  exact Path.joinWith_ne_empty hne h hundotted.symm

theorem isStep_star {star : String} (h : star ∈ stars) : Path.IsStep star := by
  rcases List.mem_pair.mp h with rfl | rfl
  · exact ⟨by decide, by decide, by decide⟩
  · exact ⟨by decide, by decide, by decide⟩

theorem steps_with_star {names : List String} (h : ∀ name ∈ names, IsSegment name) {star : String}
    (hstar : star ∈ stars) : ∀ name ∈ names ++ [star], Path.IsStep name := by
  intro name hname
  rcases List.mem_append.mp hname with hname | hname
  · exact (h name hname).step
  · rw [List.mem_singleton.mp hname]
    exact isStep_star hstar

/-- What is read from a pattern. -/
def Meaning.selection? : Meaning → Option Selection
  | nothing => none
  | directory names => some ⟨Text.joinWith "/" names, false⟩
  | inside names => some ⟨Text.joinWith "/" names, true⟩

/-- A pattern that is spelled as it should be is read as it is meant. -/
theorem selection?_of_means {pattern : String} {m : Meaning} (h : Means (trimmed pattern) m) :
    selection? pattern = m.selection? := by
  rw [selection?_eq]
  generalize trimmed pattern = text at h
  cases h with
  | empty => rfl
  | negated h =>
    rw [if_pos (by rw [h, Bool.or_true])]
    rfl
  | @directory dot names hdot hne hnames hplain =>
    have hsteps := fun name hname => (hnames name hname).step
    have hstar : '*' ∉ (Text.joinWith "/" names).toList := by
      intro hstar
      obtain ⟨name, hname, hmem⟩ := mem_joinWith (by decide) hstar
      exact (hnames name hname).no_star hmem
    have hempty := spelled_ne_empty hdot hne hsteps
    rw [if_neg (by simp [hempty, hplain]), undotted_joinWith hdot hne hsteps,
      splitWildcard_of_no_star hstar]
    rfl
  | @inside dot star names hdot hstar hnames hplain =>
    have hsteps := steps_with_star hnames hstar
    have hne : names ++ [star] ≠ [] := List.concat_ne_nil _ _
    have hempty := spelled_ne_empty hdot hne hsteps
    rw [if_neg (by simp [hempty, hplain]), undotted_joinWith hdot hne hsteps]
    by_cases hnil : names = []
    · subst hnil
      rcases List.mem_pair.mp hstar with rfl | rfl
      · rfl
      · rfl
    · rw [Path.joinWith_concat hnil, splitWildcard_star hstar
        (last_joinWith fun name hname => (hnames name hname).step)]
      rfl

end Checkup.Workspaces
