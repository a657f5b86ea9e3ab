import Checkup.Proofs.Project.Exact
import Checkup.Proofs.Rule.Places

/-!
# Workspace patterns as globs

A pattern can be read as a glob of paths: a star stands for characters within a segment, a double star
for segments. The directories that a pattern selects match it, if its star is a segment of its own. A
star behind other characters is split off as if it were one, and then what is selected lies a level
below what the glob stands for.

* `SegmentMatch`, `PathMatch`: matching a glob.
* `splitWildcard_cases`: which star is split off.
* `contributed_matches`: what a pattern contributes matches it if its star stands apart.
* `discovered_matches`: so does what is discovered.
-/

namespace Checkup.Workspaces

/-! ## Globs -/

/-- A name matches a segment of a glob, in which a star stands for any characters. -/
inductive SegmentMatch : List Char → List Char → Prop
  | nil : SegmentMatch [] []
  | skip {glob name : List Char} (h : SegmentMatch glob name) : SegmentMatch ('*' :: glob) name
  | take {glob name : List Char} (c : Char) (h : SegmentMatch ('*' :: glob) name) :
    SegmentMatch ('*' :: glob) (c :: name)
  | char {glob name : List Char} {c : Char} (hc : c ≠ '*') (h : SegmentMatch glob name) :
    SegmentMatch (c :: glob) (c :: name)

/-- The names of a path match the segments of a glob, in which a double star stands for any number of
names. -/
inductive PathMatch : List String → List String → Prop
  | nil : PathMatch [] []
  | skip {glob names : List String} (h : PathMatch glob names) : PathMatch ("**" :: glob) names
  | take {glob names : List String} (name : String) (h : PathMatch ("**" :: glob) names) :
    PathMatch ("**" :: glob) (name :: names)
  | segment {glob names : List String} {segment name : String} (hne : segment ≠ "**")
    (hname : SegmentMatch segment.toList name.toList) (h : PathMatch glob names) :
    PathMatch (segment :: glob) (name :: names)

theorem segmentMatch_star (name : List Char) : SegmentMatch ['*'] name := by
  induction name with
  | nil => exact .skip .nil
  | cons c rest ih => exact .take c ih

theorem segmentMatch_self (name : List Char) : SegmentMatch name name := by
  induction name with
  | nil => exact .nil
  | cons c rest ih =>
    by_cases hc : c = '*'
    · subst hc
      exact .take '*' (.skip ih)
    · exact .char hc ih

theorem PathMatch.append {glob names glob' names' : List String} (h : PathMatch glob names)
    (h' : PathMatch glob' names') : PathMatch (glob ++ glob') (names ++ names') := by
  induction h with
  | nil => exact h'
  | skip _ ih => exact .skip ih
  | take name _ ih => exact .take name ih
  | segment hne hname _ ih => exact .segment hne hname ih

/-- A star or two as a segment match any name. -/
theorem pathMatch_star {star : String} (h : star ∈ stars) (name : String) :
    PathMatch [star] [name] := by
  rcases List.mem_pair.mp h with rfl | rfl
  · exact .segment (by simp) (segmentMatch_star _) .nil
  · exact .take name (.skip .nil)

theorem pathMatch_self (names : List String) : PathMatch names names := by
  induction names with
  | nil => exact .nil
  | cons name rest ih =>
    by_cases hstar : name = "**"
    · subst hstar
      exact .take "**" (.skip ih)
    · exact .segment hstar (segmentMatch_self _) ih

/-- Without a double star a glob matches name by name. -/
theorem PathMatch.forall₂ {glob names : List String} (h : PathMatch glob names)
    (hstar : "**" ∉ glob) :
    List.Forall₂ (fun segment name => SegmentMatch segment.toList name.toList) glob names := by
  induction h with
  | nil => exact .nil
  | skip _ _ => exact absurd (List.mem_cons_self ..) hstar
  | take _ _ _ => exact absurd (List.mem_cons_self ..) hstar
  | segment _ hname _ ih => exact .cons hname (ih fun hmem => hstar (List.mem_cons_of_mem _ hmem))

/-! ## The star that is split off -/

/-- The glob that a pattern is read as. -/
def globOf (pattern : String) : String := undotted (trimmed pattern)

/-- A star at the end of a glob is a segment of its own, alone or with another star. -/
def StarApart (glob : String) : Prop :=
  Text.endsWith glob.toList ['*'] = true → Path.baseName glob ∈ stars

/-- How a glob is split: it has no star at its end, its last segment is a star, or the star follows
other characters of the last segment. -/
inductive Split (glob : String) : Selection → Prop
  | plain (h : Text.endsWith glob.toList ['*'] = false) : Split glob ⟨glob, false⟩
  | apart {above : List String} {star base : String} (hstar : star ∈ stars)
    (hpieces : Text.pieces '/' glob = above ++ [star])
    (hbase : Path.steps base = above.filter Path.isStep) : Split glob ⟨base, true⟩
  | behind {above : List String} {name star base : String} (hstar : star ∈ stars) (hne : name ≠ "")
    (hends : Text.endsWith glob.toList ['*'] = true)
    (hpieces : Text.pieces '/' glob = above ++ [name ++ star])
    (hbase : Path.steps base = (above ++ [name]).filter Path.isStep)
    (hbehind : name ++ star ∉ stars) : Split glob ⟨base, true⟩

theorem no_slash_star {star : String} (h : star ∈ stars) : '/' ∉ star.toList := (isStep_star h).no_slash

/-- A star after a slash. -/
theorem split_apart {base star : String} (hstar : star ∈ stars) : Split (base ++ "/" ++ star)
    ⟨String.ofList (Text.dropTrailing (· == '/') base.toList), true⟩ := by
  have hpieces : Text.pieces '/' (base ++ "/" ++ star) = Text.pieces '/' base ++ [star] := by
    rw [Path.pieces_append_slash, Path.pieces_of_no_slash (no_slash_star hstar)]
  refine .apart hstar hpieces ?_
  · rw [Path.steps_dropTrailing, String.ofList_toList]
    rfl

theorem pieces_append {base text : String} (htext : '/' ∉ text.toList) {above : List String}
    {name : String} (h : Text.pieces '/' base = above ++ [name]) :
    Text.pieces '/' (base ++ text) = above ++ [name ++ text] := by
  have hslash : ∀ n ∈ above ++ [name], '/' ∉ n.toList := by
    intro n hn
    rw [← h] at hn
    exact Path.no_slash_of_mem_pieces hn
  obtain ⟨habove, hname⟩ := List.forall_mem_append.mp hslash
  have hbase := Path.joinWith_pieces base
  rw [h] at hbase
  rw [← hbase, Path.joinWith_append]
  apply Path.pieces_joinWith (List.concat_ne_nil _ _)
  intro n hn
  rcases List.mem_append.mp hn with hn | hn
  · exact habove n hn
  · rw [List.mem_singleton.mp hn, String.toList_append, List.mem_append, not_or]
    exact ⟨hname name (List.mem_singleton_self name), htext⟩

/-- A star after something else than a slash, if there is anything before it. -/
theorem split_behind {base star : String} (hstar : star ∈ stars)
    (hslash : ∀ front, base ≠ front ++ "/") (hlone : star = "*" → ∀ front, base ≠ front ++ "*") :
    Split (base ++ star) ⟨String.ofList (Text.dropTrailing (· == '/') base.toList), true⟩ := by
  by_cases hne : base = ""
  · subst hne
    have hpieces : Text.pieces '/' ("" ++ star) = [] ++ [star] :=
      Path.pieces_of_no_slash (no_slash_star hstar)
    exact .apart hstar hpieces rfl
  have hpieces : Text.pieces '/' base ≠ [] := by
    simp [Text.pieces, Text.splitOn, Text.splitWhere_ne_nil]
  obtain ⟨above, name, hsplit⟩ := (List.eq_nil_or_concat' _).resolve_left hpieces
  have hbase := Path.joinWith_pieces base
  rw [hsplit] at hbase
  have hname : name ≠ "" := by
    rintro rfl
    by_cases habove : above = []
    · subst habove
      exact hne hbase.symm
    · rw [Path.joinWith_concat habove, String.append_empty] at hbase
      exact hslash _ hbase.symm
  refine .behind hstar hname ?_ (pieces_append (no_slash_star hstar) hsplit) ?_ ?_
  · have hlast : ∀ star ∈ stars, ['*'] <:+ star.toList := by simp [stars]
    rw [endsWith_iff, String.toList_append]
    exact (hlast star hstar).trans (List.suffix_append _ _)
  · rw [Path.steps_dropTrailing, String.ofList_toList, ← hsplit]
    rfl
  · intro hmem
    obtain ⟨c, rest, hchars⟩ : ∃ c rest, name.toList = c :: rest := by
      apply List.exists_cons_of_ne_nil
      rwa [ne_eq, String.toList_eq_nil_iff]
    have hstars : (c :: rest) ++ star.toList ∈ [['*'], ['*', '*']] := by
      have hlist := List.mem_map_of_mem (f := String.toList) hmem
      rwa [String.toList_append, hchars] at hlist
    rcases List.mem_pair.mp hstar with rfl | rfl
    · have hlone' : c = '*' ∧ rest = [] := by simpa using hstars
      obtain ⟨rfl, rfl⟩ := hlone'
      obtain ⟨front, hfront⟩ := Text.suffix_joinWith "/" (List.getLast?_concat (l := above) (a := name))
      rw [hbase, hchars] at hfront
      apply hlone rfl (String.ofList front)
      rw [← String.toList_inj, ← hfront]
      simp
    · have hshort : ∀ chars ∈ [['*'], ['*', '*']], chars.length ≤ 2 := by simp
      have hlength := hshort _ hstars
      simp at hlength

/-- The first of the endings that a glob has is split off. -/
theorem splitWildcard_append {base ending : String}
    (h : wildcards.find? (fun e => Text.endsWith (base ++ ending).toList e.toList) = some ending) :
    splitWildcard (base ++ ending) =
      ⟨String.ofList (Text.dropTrailing (· == '/') base.toList), true⟩ := by
  unfold splitWildcard
  rw [h]
  dsimp only
  rw [take_before]

theorem exists_append_of_endsWith {text ending : String}
    (h : Text.endsWith text.toList ending.toList = true) : ∃ base, text = base ++ ending := by
  obtain ⟨front, hfront⟩ := endsWith_iff.mp h
  refine ⟨String.ofList front, ?_⟩
  rw [← String.toList_inj, ← hfront]
  simp

theorem endsWith_append (front ending : String) :
    Text.endsWith (front ++ ending).toList ending.toList = true := by
  rw [endsWith_iff, String.toList_append]
  exact List.suffix_append _ _

/-- How every glob is split. -/
theorem splitWildcard_cases (glob : String) : Split glob (splitWildcard glob) := by
  by_cases hdeep : Text.endsWith glob.toList "/**".toList = true
  · obtain ⟨base, rfl⟩ := exists_append_of_endsWith hdeep
    rw [splitWildcard_append (List.find?_cons_of_pos hdeep)]
    have hsplit := @split_apart base "**" (by simp [stars])
    rwa [String.append_assoc] at hsplit
  by_cases hflat : Text.endsWith glob.toList "/*".toList = true
  · obtain ⟨base, rfl⟩ := exists_append_of_endsWith hflat
    rw [splitWildcard_append (by
      unfold wildcards
      rw [List.find?_cons_of_neg (by exact hdeep), List.find?_cons_of_pos (by exact hflat)])]
    have hsplit := @split_apart base "*" (by simp [stars])
    rwa [String.append_assoc] at hsplit
  by_cases hdouble : Text.endsWith glob.toList "**".toList = true
  · obtain ⟨base, rfl⟩ := exists_append_of_endsWith hdouble
    rw [splitWildcard_append (by
      unfold wildcards
      rw [List.find?_cons_of_neg (by exact hdeep), List.find?_cons_of_neg (by exact hflat),
        List.find?_cons_of_pos (by exact hdouble)])]
    refine split_behind (by simp [stars]) (fun front hfront => hdeep ?_) fun h => absurd h (by simp)
    rw [hfront, String.append_assoc]
    exact endsWith_append front "/**"
  by_cases hsingle : Text.endsWith glob.toList "*".toList = true
  · obtain ⟨base, rfl⟩ := exists_append_of_endsWith hsingle
    rw [splitWildcard_append (by
      unfold wildcards
      rw [List.find?_cons_of_neg (by exact hdeep), List.find?_cons_of_neg (by exact hflat),
        List.find?_cons_of_neg (by exact hdouble), List.find?_cons_of_pos (by exact hsingle)])]
    refine split_behind (by simp [stars]) (fun front hfront => hflat ?_)
      fun _ front hfront => hdouble ?_
    · rw [hfront, String.append_assoc]
      exact endsWith_append front "/*"
    · rw [hfront, String.append_assoc]
      exact endsWith_append front "**"
  have hnone : splitWildcard glob = ⟨glob, false⟩ := by
    unfold splitWildcard wildcards
    rw [List.find?_cons_of_neg (by exact hdeep), List.find?_cons_of_neg (by exact hflat),
      List.find?_cons_of_neg (by exact hdouble), List.find?_cons_of_neg (by exact hsingle)]
    rfl
  rw [hnone]
  exact .plain (Bool.eq_false_iff.mpr hsingle)

/-! ## What a pattern contributes -/

variable {t : Tree} {root : List String}

/-- A pattern contributes the path of a directory that it selects, unless that is the project. -/
def Contributes (t : Tree) (root : List String) (pattern : Label) (path : String) : Prop :=
  ∃ directories d, directoriesOf t root pattern = .ok directories ∧
    d ∈ directories ∧ relativePath root d = .ok path ∧ path ≠ "."

/-- Below a relative base the base is selected, or for a wildcard an open name below it. -/
theorem steps_of_selected (ht : t.Named) {s : Selection} {directories : List (List String)}
    (hselect : select t root s = .ok directories) {d : List String} (hd : d ∈ directories)
    {path : String} (hpath : relativePath root d = .ok path)
    (hrelative : Path.isAbsolute s.base = false) :
    (s.wildcard = false ∧ Path.steps path = Path.steps s.base) ∨
      (s.wildcard = true ∧ ∃ name, Path.IsStep name ∧ isOpenName name = true ∧
        Path.steps path = Path.steps s.base ++ [name]) := by
  have hbase : ∀ name ∈ Path.steps s.base, Path.IsStep name := fun _ h => Path.isStep_of_mem_steps h
  have hbelow {rest : List String} (hrest : ∀ name ∈ rest, Path.IsStep name) (heq : d = root ++ rest) :
      Path.steps path = rest := by
    obtain ⟨rest', heq', rfl⟩ := relativePath_eq_ok hpath
    obtain rfl : rest = rest' := List.append_cancel_left (heq.symm.trans heq')
    exact Path.steps_relative hrest
  have hfrom := Path.stepsFrom_relative hrelative root
  cases matched_of_select hselect hd with
  | base hwildcard hd => exact .inl ⟨hwildcard, hbelow hbase (hd.trans hfrom)⟩
  | @below l name hwildcard _ hname hopen hd =>
    obtain ⟨node, hnode⟩ := Option.ne_none_iff_exists'.mp (Tree.mem_children_iff.mp hname)
    have hstep : Path.IsStep name := .of_name (ht hnode)
    rw [hfrom, List.append_assoc] at hd
    exact .inr ⟨hwildcard, name, hstep, hopen, hbelow (List.forall_mem_append.mpr
      ⟨hbase, List.forall_mem_singleton.mpr hstep⟩) hd⟩

theorem baseName_of_pieces {glob last : String} {above : List String}
    (h : Text.pieces '/' glob = above ++ [last]) : Path.baseName glob = last := by
  unfold Path.baseName
  rw [h, List.getLast?_concat]
  rfl

theorem steps_of_pieces {glob last : String} {above : List String}
    (h : Text.pieces '/' glob = above ++ [last]) (hlast : Path.IsStep last) :
    Path.steps glob = above.filter Path.isStep ++ [last] := by
  unfold Path.steps
  rw [h, List.filter_append, List.filter_singleton, Path.isStep_of hlast]
  rfl

/-- An open name does not begin with a dot. -/
theorem not_segmentMatch_dot {star name : String} (hopen : isOpenName name = true) :
    ¬ SegmentMatch ("." ++ star).toList name.toList := by
  intro hmatch
  rw [String.toList_append] at hmatch
  have hdot : Text.startsWith name "." = true := by
    unfold Text.startsWith
    generalize name.toList = chars at hmatch
    cases hmatch with
    | char _ _ => rfl
  unfold isOpenName at hopen
  rw [hdot] at hopen
  cases hopen

theorem isStep_behind {name star : String} (hstar : star ∈ stars) (hne : name ≠ "")
    (hslash : '/' ∉ (name ++ star).toList) : Path.IsStep (name ++ star) := by
  refine ⟨?_, ?_, hslash⟩
  · intro h
    exact hne (String.append_eq_empty_iff.mp h).1
  · intro h
    have hstars : ∀ star ∈ stars, '*' ∈ star.toList := by simp [stars]
    have hmem : '*' ∈ (name ++ star).toList := by simp [hstars star hstar]
    rw [h] at hmem
    simp at hmem

/-- A segment with a star behind other characters does not match what is in a directory of that name. -/
theorem not_pathMatch_behind {above : List String} {name star last : String} (hne : name ≠ "")
    (hopen : isOpenName last = true)
    (hdouble : "**" ∉ above.filter Path.isStep ++ [name ++ star]) :
    ¬ PathMatch (above.filter Path.isStep ++ [name ++ star])
      ((above ++ [name]).filter Path.isStep ++ [last]) := by
  intro hmatch
  have hall := hmatch.forall₂ hdouble
  rw [List.filter_append] at hall
  by_cases hname : name = "."
  · -- the dot is no step, so the glob and the path have as many segments
    subst hname
    have hdot : ["."].filter Path.isStep = [] := rfl
    rw [hdot, List.append_nil] at hall
    have hback := List.forall₂_reverse_iff.mpr hall
    rw [List.reverse_append, List.reverse_append] at hback
    exact not_segmentMatch_dot hopen (List.forall₂_cons.mp hback).1
  · have hkept : [name].filter Path.isStep = [name] := by
      simp [Path.isStep, hne, hname]
    have hlength := hall.length_eq
    rw [hkept] at hlength
    simp at hlength

/-- What a pattern with a relative base contributes matches it as a glob if a star at its end stands
apart. If it does not, and no segment is a double star, nothing that is contributed matches. -/
theorem selected_matches (ht : t.Named) {pattern path : String} {s : Selection}
    (hs : selection? pattern = some s) {directories : List (List String)}
    (hselect : select t root s = .ok directories) {d : List String} (hd : d ∈ directories)
    (hpath : relativePath root d = .ok path)
    (hrelative : Path.isAbsolute (splitWildcard (globOf pattern)).base = false) :
    (StarApart (globOf pattern) →
      PathMatch (Path.steps (globOf pattern)) (Path.steps path)) ∧
    (¬ StarApart (globOf pattern) → "**" ∉ Path.steps (globOf pattern) →
      ¬ PathMatch (Path.steps (globOf pattern)) (Path.steps path)) := by
  have hread : s = splitWildcard (globOf pattern) := by
    rw [selection?_eq] at hs
    split at hs
    · cases hs
    · exact (Option.some.inj hs).symm
  rw [← hread] at hrelative
  have hsteps := steps_of_selected ht hselect hd hpath hrelative
  have hsplit := splitWildcard_cases (globOf pattern)
  rw [← hread] at hsplit
  generalize globOf pattern = glob at hsplit
  cases hsplit with
  | plain hends =>
    have hsame : Path.steps path = Path.steps glob := by simpa using hsteps
    have hapart : StarApart glob := fun h => absurd h (by simp [hends])
    rw [hsame]
    exact ⟨fun _ => pathMatch_self _, fun h => absurd hapart h⟩
  | @apart above star base hstar hpieces hbase =>
    have hname : ∃ name, Path.steps path = above.filter Path.isStep ++ [name] := by
      obtain ⟨name, -, -, hname⟩ := by simpa using hsteps
      exact ⟨name, hname.trans (by rw [hbase])⟩
    obtain ⟨name, hname⟩ := hname
    have hapart : StarApart glob := fun _ => by rwa [baseName_of_pieces hpieces]
    rw [hname, steps_of_pieces hpieces (isStep_star hstar)]
    exact ⟨fun _ => (pathMatch_self _).append (pathMatch_star hstar name),
      fun h => absurd hapart h⟩
  | @behind above name star base hstar hne hends hpieces hbase hbehind =>
    obtain ⟨last, -, hopen, hlast⟩ := by simpa using hsteps
    have hmem : name ++ star ∈ Text.pieces '/' glob := by simp [hpieces]
    have hstep := isStep_behind hstar hne (Path.no_slash_of_mem_pieces hmem)
    rw [hlast, hbase, steps_of_pieces hpieces hstep]
    exact ⟨fun hapart => absurd (hapart hends) (by rwa [baseName_of_pieces hpieces]),
      fun _ hdouble => not_pathMatch_behind hne hopen hdouble⟩

/-- Only a text contributes anything. -/
theorem contributed_matches (ht : t.Named) {pattern : Label} {path : String}
    (h : Contributes t root pattern path) : ∃ text, pattern = .text text ∧
      (Path.isAbsolute (splitWildcard (globOf text)).base = false →
        (StarApart (globOf text) → PathMatch (Path.steps (globOf text)) (Path.steps path)) ∧
        (¬ StarApart (globOf text) → "**" ∉ Path.steps (globOf text) →
          ¬ PathMatch (Path.steps (globOf text)) (Path.steps path))) := by
  obtain ⟨directories, d, hdirectories, hd, hpath, -⟩ := h
  obtain ⟨text, s, rfl, hs, hselect⟩ := exists_selection hdirectories hd
  exact ⟨text, rfl, selected_matches ht hs hselect hd hpath⟩

/-! ## Discovery -/

theorem path_of_addAll {directories : List (List String)} {found all : List Workspace}
    (h : addAll t root found directories = .ok all) : ∀ w ∈ all,
      w ∈ found ∨ ∃ d ∈ directories, relativePath root d = .ok w.path ∧ w.path ≠ "." := by
  induction directories generalizing found with
  | nil =>
    cases h
    exact fun w hw => .inl hw
  | cons directory rest ih =>
    intro w hw
    rw [addAll] at h
    obtain ⟨path, hpath, h⟩ := Except.bind_eq_ok.mp h
    have hlater : (∃ d ∈ rest, relativePath root d = .ok w.path ∧ w.path ≠ ".") →
        ∃ d ∈ directory :: rest, relativePath root d = .ok w.path ∧ w.path ≠ "." := by
      rintro ⟨d, hd, hat⟩
      exact ⟨d, List.mem_cons_of_mem directory hd, hat⟩
    split at h
    · exact (ih h w hw).imp_right hlater
    · rename_i hnew
      obtain ⟨added, hadded, h⟩ := Except.bind_eq_ok.mp h
      rcases ih h w hw with hw | hw
      · rcases List.mem_append.mp hw with hw | hw
        · exact .inl hw
        · rw [List.mem_singleton.mp hw, path_describe hadded]
          refine .inr ⟨directory, List.mem_cons_self .., hpath, ?_⟩
          rintro rfl
          exact hnew rfl
      · exact .inr (hlater hw)

/-- Every workspace that is added has a path that one of the patterns contributes. -/
theorem exists_contributes {listed : List Label} {found all : List Workspace}
    (h : addPatterns t root found listed = .ok all) : ∀ w ∈ all,
      w ∈ found ∨ ∃ pattern ∈ listed, Contributes t root pattern w.path := by
  induction listed generalizing found with
  | nil =>
    cases h
    exact fun w hw => .inl hw
  | cons pattern rest ih =>
    intro w hw
    obtain ⟨directories, hdirectories, more, hadd, h⟩ := addPatterns_cons.mp h
    rcases ih h w hw with hw | ⟨other, hother, hat⟩
    · rcases path_of_addAll hadd w hw with hw | ⟨d, hd, hpath, hne⟩
      · exact .inl hw
      · exact .inr ⟨pattern, List.mem_cons_self .., directories, d, hdirectories, hd, hpath, hne⟩
    · exact .inr ⟨other, List.mem_cons_of_mem pattern hother, hat⟩

/-- Every discovered workspace is contributed by a declared pattern, and only a text contributes any. What
a pattern with a relative base contributes matches it as a glob if a star at its end stands apart; behind
other characters, where no segment is a double star, it does not. -/
theorem discovered_matches (ht : t.Named) {manifest : Json.Members} {listed : List Label}
    (hlisted : patterns t root manifest = .ok listed) {all : List Workspace}
    (h : discover t root manifest = .ok all) :
    (∀ w ∈ all, ∃ pattern ∈ listed, Contributes t root pattern w.path) ∧
      ∀ pattern ∈ listed, ∀ path, Contributes t root pattern path →
        ∃ text, pattern = .text text ∧
          (Path.isAbsolute (splitWildcard (globOf text)).base = false →
            (StarApart (globOf text) → PathMatch (Path.steps (globOf text)) (Path.steps path)) ∧
            (¬ StarApart (globOf text) → "**" ∉ Path.steps (globOf text) →
              ¬ PathMatch (Path.steps (globOf text)) (Path.steps path))) := by
  rw [discover_eq hlisted] at h
  refine ⟨fun w hw => ?_, fun pattern _ path hpath => contributed_matches ht hpath⟩
  exact (exists_contributes h w hw).resolve_left List.not_mem_nil

/-! ## A star behind a name -/

/-- A project with a folder of packages. -/
def packagesFolder : Tree := ⟨[(["r"], .folder), (["r", "packages"], .folder),
  (["r", "packages", "a"], .folder)]⟩

/-- The package in the folder. -/
def folderPackage : Workspace := ⟨"a", "packages/a", "/r/packages/a", .generic, false⟩

theorem named_packagesFolder : packagesFolder.Named := Tree.named_of_entries (by decide)

theorem discovered_matches_packagesFolder :
    discover packagesFolder ["r"] (declaring "packages/*") = .ok [folderPackage] ∧
      PathMatch ["packages", "*"] ["packages", "a"] := by
  have hfound : discover packagesFolder ["r"] (declaring "packages/*") = .ok [folderPackage] := by
    decide +kernel
  have hsteps : Path.steps (globOf "packages/*") = ["packages", "*"] := by decide +kernel
  have hrelative : Path.isAbsolute (splitWildcard (globOf "packages/*")).base = false := by
    decide +kernel
  have hapart : StarApart (globOf "packages/*") := fun _ => by decide +kernel
  obtain ⟨hall, hmatches⟩ := discovered_matches named_packagesFolder (patterns_declaring _ _ _) hfound
  obtain ⟨pattern, hpattern, hpath⟩ := hall folderPackage (List.mem_singleton_self _)
  obtain rfl := List.mem_singleton.mp hpattern
  obtain ⟨text, htext, hmatch⟩ := hmatches _ hpattern _ hpath
  obtain rfl := Label.text.inj htext
  have hmatch := (hmatch hrelative).1 hapart
  rw [hsteps] at hmatch
  exact ⟨hfound, hmatch⟩

/-- The star is split off behind a name, and a package is discovered that does not match. -/
theorem unmatched_packagesFolder :
    patterns packagesFolder ["r"] (declaring "packages*") = .ok [.text "packages*"] ∧
      discover packagesFolder ["r"] (declaring "packages*") = .ok [folderPackage] ∧
      ¬ PathMatch (Path.steps (globOf "packages*")) (Path.steps folderPackage.path) := by
  have hglob : Path.steps (globOf "packages*") = ["packages*"] := by decide +kernel
  have hpath : Path.steps folderPackage.path = ["packages", "a"] := by decide +kernel
  refine ⟨patterns_declaring _ _ _, by decide +kernel, ?_⟩
  rw [hglob, hpath]
  intro hmatch
  have hlength := (hmatch.forall₂ (by simp)).length_eq
  simp at hlength

end Checkup.Workspaces
