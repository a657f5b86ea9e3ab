import Mathlib.Data.List.Forall2
import Checkup.Proofs.Ignore.Items
import Checkup.Proofs.Tree.Steps

/-!
# Ignore rules segment by segment

A pattern is cut into segments at its slashes, as a path is cut into names. A tied rule is meant to
match segment by segment: what it ignores begins with names that fit the segments. A pattern is
matched with the path as one text, though, in which a star, a question mark or a set may take a slash.

* `keeps_of_count`: wildcards take no slash of a text that has no more of them than the pattern.
* `Keeps.segments`, `segmentsFit_of_spelled`: where the names fit the segments.
* `ignored_segments`: what a tied rule ignores.
-/

namespace Checkup

namespace Glob

/-! ## Slashes that are taken -/

/-- A text has at least the slashes of a pattern that it fits. -/
theorem count_le {items : Glob} {text : List Char} (h : fits items text = true) :
    items.count (.char '/') ≤ text.count '/' := by
  induction items generalizing text with
  | nil => simp
  | cons item items ih =>
    obtain ⟨part, rest, rfl, hpart, hrest⟩ := fits_cons_iff.mp h
    have hle := ih hrest
    rw [List.count_append]
    by_cases hslash : item = .char '/'
    · subst hslash
      rw [fits_char_iff.mp hpart, List.count_cons_self, List.count_singleton_self]
      omega
    · rw [List.count_cons_of_ne hslash]
      omega

/-- A way to fit in which slashes of the text stand for slashes of the pattern. A star at the end of
the pattern may still take all that is left. -/
inductive Keeps : Glob → List Char → Prop
  | nil : Keeps [] []
  | last (text : List Char) : Keeps [.star] text
  | slash {items : Glob} {rest : List Char} (h : Keeps items rest) :
    Keeps (.char '/' :: items) ('/' :: rest)
  | item {item : GlobItem} {items : Glob} {part rest : List Char} (hpart : fits [item] part = true)
    (hslash : '/' ∉ part) (h : Keeps items rest) : Keeps (item :: items) (part ++ rest)

/-- A text without more slashes than the pattern has none to spare for a wildcard. -/
theorem keeps_of_count {items : Glob} {text : List Char} (h : fits items text = true)
    (hcount : text.count '/' ≤ items.count (.char '/')) : Keeps items text := by
  induction items generalizing text with
  | nil =>
    rw [fits, List.isEmpty_iff] at h
    exact h ▸ .nil
  | cons item items ih =>
    obtain ⟨part, rest, rfl, hpart, hrest⟩ := fits_cons_iff.mp h
    rw [List.count_append] at hcount
    by_cases hslash : item = .char '/'
    · subst hslash
      obtain rfl := fits_char_iff.mp hpart
      rw [List.count_singleton_self, List.count_cons_self] at hcount
      have hkeeps := ih hrest (by omega)
      exact .slash hkeeps
    · have hle := count_le hrest
      rw [List.count_cons_of_ne hslash] at hcount
      exact .item hpart (List.count_eq_zero.mp (by omega)) (ih hrest (by omega))

/-! ## Segments -/

/-- The segments of a pattern, between its slashes. -/
def segments (items : Glob) : List Glob := items.splitOn (.char '/')

theorem segments_slash (items : Glob) : segments (.char '/' :: items) = [] :: segments items := by
  unfold segments List.splitOn
  rw [List.splitOnP_cons_eq_if_modifyHead, if_pos (beq_self_eq_true _)]

theorem segments_item {item : GlobItem} (hne : item ≠ .char '/') {items first : Glob}
    {others : List Glob} (h : segments items = first :: others) :
    segments (item :: items) = (item :: first) :: others := by
  unfold segments List.splitOn at h ⊢
  rw [List.splitOnP_cons_eq_if_modifyHead, if_neg (by simpa using hne), h, List.modifyHead_cons]

/-- The segments fit the first names of the text. -/
theorem Keeps.segments {items : Glob} {text : List Char} (h : Keeps items text) :
    ∃ names, names <+: Text.splitOn '/' text ∧
      List.Forall₂ (fun segment name => fits segment name = true) (Glob.segments items) names := by
  induction h with
  | nil => exact ⟨[[]], List.prefix_refl _, .cons rfl .nil⟩
  | last text =>
    obtain ⟨first, others, hsplit⟩ :=
      List.exists_cons_of_ne_nil (Text.splitWhere_ne_nil (· == '/') text)
    exact ⟨[first], ⟨others, hsplit.symm⟩, .cons (fits_star first) .nil⟩
  | @slash items rest _ ih =>
    obtain ⟨names, ⟨more, hmore⟩, hfits⟩ := ih
    refine ⟨[] :: names, ⟨more, ?_⟩, ?_⟩
    · rw [List.cons_append, hmore]
      exact (Text.splitOn_append_cons '/' [] rest).symm
    · rw [segments_slash]
      exact .cons rfl hfits
  | @item item items part rest hpart hslash _ ih =>
    obtain ⟨names, ⟨more, hmore⟩, hfits⟩ := ih
    have hne : item ≠ .char '/' := by
      rintro rfl
      rw [fits_char_iff.mp hpart] at hslash
      exact hslash (List.mem_singleton_self _)
    obtain ⟨segment, others, hsegments⟩ :=
      List.exists_cons_of_ne_nil (l := Glob.segments items) (List.splitOnP_ne_nil _ items)
    rw [hsegments] at hfits
    cases hfits with
    | @cons _ name _ names hfirst hothers =>
      refine ⟨(part ++ name) :: names, ⟨more, ?_⟩, ?_⟩
      · exact (Text.splitOn_append_of_not_mem hslash hmore.symm).symm
      · rw [segments_item hne hsegments]
        exact .cons (fits_cons_iff.mpr ⟨part, name, rfl, hpart, hfirst⟩) hothers

/-! ## Patterns without sets -/

/-- The item that a character of a pattern is by itself. -/
def itemOf : Char → GlobItem
  | '*' => .star
  | '?' => .anyChar
  | c => .char c

theorem itemOf_of_ne {c : Char} (hstar : c ≠ '*') (hmark : c ≠ '?') : itemOf c = .char c := by
  unfold itemOf
  split
  · exact absurd rfl hstar
  · exact absurd rfl hmark
  · rfl

/-- The pattern has a set of characters. -/
def HasSet (items : Glob) : Prop := ∃ s, GlobItem.set s ∈ items

theorem HasSet.cons {items : Glob} (h : HasSet items) (item : GlobItem) : HasSet (item :: items) := by
  obtain ⟨s, hs⟩ := h
  exact ⟨s, List.mem_cons_of_mem _ hs⟩

theorem parseItems_of_no_set {fuel : Nat} {pattern : List Char} (hfuel : pattern.length ≤ fuel)
    (h : ¬ HasSet (parseItems fuel pattern)) : parseItems fuel pattern = pattern.map itemOf := by
  fun_induction parseItems fuel pattern with
  | case1 pattern =>
    obtain rfl : pattern = [] := List.length_eq_zero_iff.mp (Nat.le_zero.mp hfuel)
    rfl
  | case2 => rfl
  | case3 fuel rest ih =>
    rw [ih (Nat.le_of_succ_le_succ hfuel) fun hset => h (hset.cons _)]
    rfl
  | case4 fuel rest ih =>
    rw [ih (Nat.le_of_succ_le_succ hfuel) fun hset => h (hset.cons _)]
    rfl
  | case5 fuel rest body after hbody ih => exact absurd ⟨_, List.mem_cons_self⟩ h
  | case6 fuel rest hbody ih =>
    rw [ih (Nat.le_of_succ_le_succ hfuel) fun hset => h (hset.cons _)]
    rfl
  | case7 fuel c rest hstar hmark hbracket ih =>
    rw [ih (Nat.le_of_succ_le_succ hfuel) fun hset => h (hset.cons _), List.map_cons,
      itemOf_of_ne hstar hmark]

theorem parse_of_no_set {pattern : List Char} (h : ¬ HasSet (parse pattern)) :
    parse pattern = pattern.map itemOf :=
  parseItems_of_no_set (Nat.le_refl _) h

/-- The segments are then those of the text. -/
theorem segments_map (pattern : List Char) :
    segments (pattern.map itemOf) = (Text.splitOn '/' pattern).map (List.map itemOf) := by
  induction pattern with
  | nil => rfl
  | cons c rest ih =>
    obtain ⟨first, others, hsplit⟩ :=
      List.exists_cons_of_ne_nil (Text.splitWhere_ne_nil (· == '/') rest)
    by_cases hslash : c = '/'
    · subst hslash
      have hcut : Text.splitOn '/' ('/' :: rest) = [] :: Text.splitOn '/' rest :=
        Text.splitOn_append_cons '/' [] rest
      rw [hcut, List.map_cons, List.map_cons, ← ih]
      exact segments_slash _
    · have hne : itemOf c ≠ .char '/' := by
        unfold itemOf
        split <;> simp_all
      have hpart : '/' ∉ [c] := by simpa using Ne.symm hslash
      have hcut : Text.splitOn '/' (c :: rest) = (c :: first) :: others :=
        Text.splitOn_append_of_not_mem hpart hsplit
      have hrest : Text.splitOn '/' rest = first :: others := hsplit
      rw [hrest, List.map_cons] at ih
      rw [hcut, List.map_cons, List.map_cons, segments_item hne ih, List.map_cons]

/-- Such a pattern fits its own text. -/
theorem fits_self (pattern : List Char) : fits (pattern.map itemOf) pattern = true := by
  induction pattern with
  | nil => rfl
  | cons c rest ih =>
    refine fits_cons_iff.mpr ⟨[c], rest, rfl, ?_, ih⟩
    unfold itemOf
    split
    · exact fits_star _
    · rfl
    · exact fits_char_iff.mpr rfl

end Glob

namespace IgnoreRule

/-! ## What rules ignore -/

/-- The first names of a path fit the segments of a pattern, one by one. -/
def SegmentsFit (pattern path : String) : Prop :=
  ∃ names, names <+: Text.pieces '/' path ∧
    List.Forall₂ (fun segment name => Glob.fits segment name.toList = true)
      (Glob.segments (Glob.parse pattern.toList)) names

/-- The pattern matches the path as a text, but only where a wildcard takes a slash and more of the
pattern follows it. -/
def Crosses (pattern path : String) : Prop :=
  Glob.matchesText pattern path = true ∧ ¬ Glob.Keeps (Glob.parse pattern.toList) path.toList

/-- A path without more slashes than the pattern is not crossed. -/
theorem not_crosses_of_count {pattern path : String}
    (h : path.toList.count '/' ≤ (Glob.parse pattern.toList).count (.char '/')) :
    ¬ Crosses pattern path := by
  rintro ⟨hmatch, hkeeps⟩
  rw [Glob.matchesText_eq_fits] at hmatch
  exact hkeeps (Glob.keeps_of_count hmatch h)

theorem segmentsFit_of_keeps {pattern path : String}
    (h : Glob.Keeps (Glob.parse pattern.toList) path.toList) : SegmentsFit pattern path := by
  obtain ⟨names, hnames, hfits⟩ := h.segments
  refine ⟨names.map String.ofList, hnames.map _, ?_⟩
  rw [List.forall₂_map_right_iff]
  simpa using hfits

/-- Below a folder that is spelled like a pattern without sets the segments fit. -/
theorem segmentsFit_of_spelled {pattern path : String}
    (h : Text.startsWith path (pattern ++ "/") = true)
    (hset : ¬ Glob.HasSet (Glob.parse pattern.toList)) : SegmentsFit pattern path := by
  unfold Text.startsWith at h
  obtain ⟨rest, hrest⟩ := List.isPrefixOf_iff_prefix.mp h
  obtain rfl : path = pattern ++ "/" ++ String.ofList rest := by
    rw [← String.toList_inj, ← hrest, String.toList_append (s := pattern ++ "/"), String.toList_ofList]
  refine ⟨Text.pieces '/' pattern, ?_, ?_⟩
  · rw [Path.pieces_append_slash]
    exact List.prefix_append _ _
  · rw [Glob.parse_of_no_set hset, Glob.segments_map, Text.pieces, List.forall₂_map_left_iff,
      List.forall₂_map_right_iff, List.forall₂_same]
    intro piece _
    rw [String.toList_ofList]
    exact Glob.fits_self piece

/-- The marks that the rule of a line has. -/
theorem marks_of_ofLine? {line : String} {rule : IgnoreRule} (hline : ofLine? line = some rule) :
    rule.directoryOnly = Text.endsWith (Text.trimBlank line).toList ['/'] ∧
      ('/' ∈ dropSlashAtEnd (Text.trimBlank line).toList →
        (rule.anchored || rule.hasSlash) = true) := by
  unfold ofLine? at hline
  dsimp only at hline
  split at hline
  · cases hline
  · obtain rfl := Option.some.inj hline
    dsimp only
    generalize (Text.trimBlank line).toList = text
    refine ⟨rfl, fun hslash => ?_⟩
    generalize dropSlashAtEnd text = body at hslash
    unfold dropSlashAtStart
    split
    · rfl
    · simp [hslash]

/-- What a tied rule ignores is a folder if the line ends in a slash, and its first names fit the
segments of the pattern, unless a wildcard takes a slash, or the path is below a folder that is
spelled like a pattern with a set. -/
theorem ignored_segments {line : String} {rule : IgnoreRule} {path : String} {isFolder : Bool}
    (hline : ofLine? line = some rule)
    (hslash : '/' ∈ dropSlashAtEnd (Text.trimBlank line).toList)
    (h : rule.ignores path isFolder = true) (hcross : ¬ Crosses rule.pattern path)
    (hset : Text.startsWith path (rule.pattern ++ "/") = true →
      ¬ Glob.HasSet (Glob.parse rule.pattern.toList)) :
    (Text.endsWith (Text.trimBlank line).toList ['/'] = true → isFolder = true) ∧
      SegmentsFit rule.pattern path := by
  obtain ⟨hdirectory, htied⟩ := marks_of_ofLine? hline
  unfold ignores at h
  rw [htied hslash, if_pos rfl] at h
  split at h
  · cases h
  split at h
  · cases h
  rename_i hfolder
  constructor
  · intro hends
    rw [← hdirectory] at hends
    simpa [hends] using hfolder
  · rcases Bool.or_eq_true_iff.mp h with hmatch | hspelled
    · apply segmentsFit_of_keeps
      by_contra hkeeps
      exact hcross ⟨hmatch, hkeeps⟩
    · exact segmentsFit_of_spelled hspelled (hset hspelled)

/-- A pattern with a star, whose path has as many slashes. -/
theorem ignored_segments_sourceFile :
    ofLine? "/src/*.ts" = some ⟨"src/*.ts", false, true, true⟩ ∧
      SegmentsFit "src/*.ts" "src/a.ts" := by
  have hline : ofLine? "/src/*.ts" = some ⟨"src/*.ts", false, true, true⟩ := by rfl
  have hignored : IgnoreRule.ignores ⟨"src/*.ts", false, true, true⟩ "src/a.ts" false = true := by
    rfl
  have hslash : '/' ∈ dropSlashAtEnd (Text.trimBlank "/src/*.ts").toList := by decide
  have hcross : ¬ Crosses "src/*.ts" "src/a.ts" := not_crosses_of_count (by decide)
  have hspelled : Text.startsWith "src/a.ts" ("src/*.ts" ++ "/") = false := by decide
  have hset : Text.startsWith "src/a.ts" ("src/*.ts" ++ "/") = true →
      ¬ Glob.HasSet (Glob.parse "src/*.ts".toList) := by
    rw [hspelled]
    intro h
    cases h
  exact ⟨hline, (ignored_segments hline hslash hignored hcross hset).2⟩

/-- A star takes the name of a folder with the slash behind it. -/
theorem unfit_anchoredStar :
    ∃ line rule path, ofLine? line = some rule ∧
      '/' ∈ dropSlashAtEnd (Text.trimBlank line).toList ∧
      Text.contains line "**" = false ∧ rule.ignores path false = true ∧
      ¬ SegmentsFit rule.pattern path := by
  refine ⟨"/*.ts", ⟨"*.ts", false, true, false⟩, "src/a.ts", by rfl, by decide, by decide, by rfl,
    ?_⟩
  rintro ⟨names, hnames, hfits⟩
  have hsegments : Glob.segments (Glob.parse "*.ts".toList) =
      [[.star, .char '.', .char 't', .char 's']] := by rfl
  have hpieces : Text.pieces '/' "src/a.ts" = ["src", "a.ts"] := by rfl
  rw [hsegments] at hfits
  rw [hpieces] at hnames
  cases hfits with
  | cons hname _ =>
    obtain ⟨rfl, -⟩ := List.cons_prefix_cons.mp hnames
    simp [Glob.fits, Glob.someSuffix] at hname

end IgnoreRule

end Checkup
