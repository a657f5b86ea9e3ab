import Checkup.Proofs.Scan.Files
import Mathlib.Data.List.Sort

/-!
# The same walk in two trees

The names in a folder are listed in order and each once, so two trees list the same names in a folder
if the same names are there. A walk goes by these names and by what the entries are; it finds the same
files in two trees that differ only in an entry which it does not look at.

* `Tree.filter_children_eq`: the names in a folder of two trees.
* `Pattern.exists_ending_of_accepts`: the ending of a file that a pattern by extensions accepts.
* `Context.Walked`, `Context.walk_eq`: two walks that find the same.
-/

namespace Checkup

/-! ## Names in a folder -/

theorem sublist_loop_eraseReps (first : String) (rest found : List String) :
    (List.eraseRepsBy.loop (· == ·) first rest found).Sublist (found.reverse ++ first :: rest) := by
  induction rest generalizing first found with
  | nil =>
    rw [List.eraseRepsBy.loop, List.reverse_cons]
  | cons next more ih =>
    rw [List.eraseRepsBy.loop]
    split
    · exact (ih first found).trans ((((List.Sublist.refl more).cons next).cons_cons first).append_left _)
    · have h := ih next (first :: found)
      rwa [List.reverse_cons, List.append_assoc] at h

theorem eraseReps_sublist (names : List String) : names.eraseReps.Sublist names := by
  unfold List.eraseReps
  cases names with
  | nil => exact .slnil
  | cons first rest => exact sublist_loop_eraseReps first rest []

namespace Tree

theorem sorted_children (t : Tree) (location : Location) :
    (t.children location).Pairwise fun a b => nameLE a b = true :=
  (List.pairwise_mergeSort nameLE_trans nameLE_total _).sublist (eraseReps_sublist _)

/-- The names of some kind in a folder are the same in two trees if the same ones are there. -/
theorem filter_children_eq {t t' : Tree} {l : Location} {keep : String → Bool}
    (h : ∀ name, keep name = true →
      (t'.node? (l ++ [name]) ≠ none ↔ t.node? (l ++ [name]) ≠ none)) :
    (t'.children l).filter keep = (t.children l).filter keep := by
  have hperm : ((t'.children l).filter keep).Perm ((t.children l).filter keep) := by
    refine (List.perm_ext_iff_of_nodup ((nodup_children t' l).filter _)
      ((nodup_children t l).filter _)).mpr fun name => ?_
    rw [List.mem_filter, List.mem_filter, mem_children_iff, mem_children_iff]
    exact and_congr_left fun hkeep => h name hkeep
  exact hperm.eq_of_pairwise (fun _ _ _ _ => eq_of_nameLE)
    ((sorted_children t' l).sublist List.filter_sublist)
    ((sorted_children t l).sublist List.filter_sublist)

end Tree

/-! ## Endings of accepted files -/

namespace Pattern

/-- The endings of files with some extensions; a newline may follow. -/
def endings (extensions : List String) : List (List Char) :=
  extensions.flatMap fun e => ['.' :: e.toList, '.' :: e.toList ++ ['\n']]

theorem matches_anyText {texts : List String} {place : Cursor} {found : Found}
    (h : Matches (anyText texts) place found) :
    ∃ s ∈ texts, place.rest = s.toList ++ found.after.rest := by
  unfold anyText at h
  induction texts with
  | nil => cases h with
    | one _ _ hfalse => cases hfalse
  | cons s rest ih =>
    have hs : Matches (text s) place found → ∃ s' ∈ s :: rest,
        place.rest = s'.toList ++ found.after.rest :=
      fun h => ⟨s, List.mem_cons_self .., matches_literal h⟩
    cases rest with
    | nil => exact hs h
    | cons next more =>
      cases h with
      | eitherLeft h => exact hs h
      | eitherRight h =>
        obtain ⟨s', hmem, heq⟩ := ih h
        exact ⟨s', List.mem_cons_of_mem _ hmem, heq⟩

theorem mem_endings_of_matches {extensions : List String} {place : Cursor} {found : Found}
    (h : Matches (extension extensions) place found) : place.rest ∈ endings extensions := by
  obtain ⟨start, name, htext, hdot, hend⟩ := matches_extension h
  obtain ⟨e, he, hstart⟩ := matches_anyText htext
  refine List.mem_flatMap.mpr ⟨e, he, ?_⟩
  rw [hdot, hstart]
  rcases hend with hend | hend <;> rw [hend] <;> simp

/-- The pattern goes by the extension of a file, and perhaps by its name too. -/
inductive ByExtension (extensions : List String) : Pattern → Prop
  | any : ByExtension extensions (extension extensions)
  | named (names : List String) : ByExtension extensions (fileNamed names extensions)

/-- A file that is accepted has one of the extensions. -/
theorem exists_ending_of_accepts {p : Pattern} {extensions : List String}
    (hp : ByExtension extensions p) {path : String} (h : p.accepts path = true) :
    ∃ ending ∈ endings extensions, ending <:+ path.toList := by
  unfold accepts foundIn search? at h
  obtain ⟨found, hfound⟩ := Option.isSome_iff_exists.mp h
  obtain ⟨front, rest, hpath, hm⟩ := exists_skip_of_searchFrom? hfound
  have hsuffix : rest <:+ path.toList := ⟨front, hpath.symm⟩
  cases hp with
  | any => exact ⟨_, mem_endings_of_matches hm, hsuffix⟩
  | named names =>
    unfold fileNamed sequence sequence sequence at hm
    cases hm with
    | seq hstart hrest =>
      cases hrest with
      | seq hname hext =>
        refine ⟨_, mem_endings_of_matches hext, ?_⟩
        exact (consumes_of_matches hname).trans ((consumes_of_matches hstart).trans hsuffix)

end Pattern

/-! ## Walks -/

/-- What gives nothing may be left out. -/
theorem flatMap_filter_of_nil {α β : Type} {f : α → List β} {keep : α → Bool} {items : List α}
    (h : ∀ a ∈ items, keep a = false → f a = []) : (items.filter keep).flatMap f = items.flatMap f := by
  induction items with
  | nil => rfl
  | cons a rest ih =>
    obtain ⟨ha, hrest⟩ := List.forall_mem_cons.mp h
    cases hkeep : keep a with
    | true => rw [List.filter_cons_of_pos hkeep, List.flatMap_cons, List.flatMap_cons, ih hrest]
    | false => rw [List.filter_cons_of_neg (by simp [hkeep]), List.flatMap_cons, ha hkeep, ih hrest,
        List.nil_append]

namespace Context

variable {c : Context} {t t' : Tree} {accepts : String → Bool} {Q : List String → Prop}
  {fresh : String}

/-- Two trees show a walk the same, in the folders that it enters: the same names but for one that is
never entered, and the same kinds of entries. -/
structure Walked (Q : List String → Prop) (fresh : String) (t t' : Tree) : Prop where
  skipped : isSkippedName fresh = true
  names : ∀ {steps}, Q steps →
    (namesIn t' steps).filter (· != fresh) = (namesIn t steps).filter (· != fresh)
  kind : ∀ {steps name}, Q steps → name ∈ namesIn t steps → name ≠ fresh →
    entryKind t' (steps ++ [name]) = entryKind t (steps ++ [name])
  below : ∀ {steps name}, Q steps → isSkippedName name = false → Q (steps ++ [name])

/-- Nothing is found at an entry that is neither entered nor accepted. -/
theorem found_skipped {left : Nat} {steps : List String} {folder name : String}
    (hskip : isSkippedName name = true) (haccepts : accepts (entryPath folder name) = false) :
    c.found t accepts left steps folder name = [] := by
  unfold found
  rw [hskip, haccepts]
  split <;> rfl

/-- The walks find the same. -/
theorem walk_eq (h : Walked Q fresh t t') (haccepts : ∀ folder, accepts (entryPath folder fresh) = false)
    (left : Nat) {steps : List String} (hsteps : Q steps) (folder : String) :
    c.walk t' accepts left steps folder = c.walk t accepts left steps folder := by
  induction left generalizing steps folder with
  | zero => rfl
  | succ left ih =>
    have hfresh : ∀ t : Tree, ∀ name ∈ namesIn t steps, (name != fresh) = false →
        c.found t accepts left steps folder name = [] := by
      intro t name _ hname
      obtain rfl : name = fresh := by simpa using hname
      exact found_skipped h.skipped (haccepts folder)
    rw [walk_succ, walk_succ, ← flatMap_filter_of_nil (hfresh t'), ← flatMap_filter_of_nil (hfresh t),
      h.names hsteps]
    refine List.flatMap_congr fun name hname => ?_
    obtain ⟨hname, hne⟩ := List.mem_filter.mp hname
    unfold found
    rw [h.kind hsteps hname (by simpa using hne)]
    split
    · rfl
    · cases hskip : isSkippedName name with
      | true => rfl
      | false => rw [ih (h.below hsteps hskip)]
    · rfl

/-- No pattern by extensions accepts a file without one of them. -/
theorem not_accepts_entryPath {p : Pattern} {extensions : List String}
    (hp : Pattern.ByExtension extensions p) {name : String} (hslash : ∀ e ∈ extensions, '/' ∉ e.toList)
    (hname : ∀ ending ∈ Pattern.endings extensions, ¬ ending <:+ name.toList) (folder : String) :
    p.accepts (entryPath folder name) = false := by
  rw [Bool.eq_false_iff]
  intro haccepts
  obtain ⟨ending, hending, hsuffix⟩ := Pattern.exists_ending_of_accepts hp haccepts
  refine hname ending hending (suffix_of_suffix_entryPath ?_ hsuffix)
  obtain ⟨e, he, hmem⟩ := List.mem_flatMap.mp hending
  have hplain := hslash e he
  simp only [List.mem_cons, List.not_mem_nil, or_false] at hmem
  rcases hmem with rfl | rfl <;> simp [hplain]

end Context

end Checkup
