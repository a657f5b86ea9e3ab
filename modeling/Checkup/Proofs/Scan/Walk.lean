import Checkup.Proofs.Pattern.Covering
import Checkup.Proofs.Scan.Place
import Checkup.Proofs.Tree.Growth
import Checkup.Scan.Walk

/-!
# The files that a walk finds

A walk comes to a file through folders that it enters, and takes it. Everything about what it finds is
shown by induction on this way. In a tree without links the files have proper names, and new files of
ignored paths lead a walk to no further file with markup.

* `mem_children_iff`: the names in a folder.
* `Context.ComesTo`, `Context.mem_walk_iff_comesTo`: the way of a walk to the files that it finds.
* `exists_of_mem_findFiles`: the folders on the way to a file that was found, and its name.
* `isMarkup_of_accepts`: the ending of a file with markup.
* `mem_findFiles_of_grown`: what a walk of the grown tree finds was found before.
-/

namespace Checkup

/-! ## Names in a folder -/

theorem mem_loop_eraseReps {x : String} (first : String) (rest found : List String) :
    x ∈ List.eraseRepsBy.loop (· == ·) first rest found ↔ x = first ∨ x ∈ rest ∨ x ∈ found := by
  induction rest generalizing first found with
  | nil =>
    rw [List.eraseRepsBy.loop, List.mem_reverse, List.mem_cons]
    simp only [List.not_mem_nil, false_or]
  | cons next more ih =>
    rw [List.eraseRepsBy.loop]
    split
    · rename_i heq
      obtain rfl := beq_iff_eq.mp heq
      rw [ih, List.mem_cons]
      tauto
    · rw [ih, List.mem_cons, List.mem_cons]
      tauto

theorem mem_eraseReps {x : String} {names : List String} : x ∈ names.eraseReps ↔ x ∈ names := by
  unfold List.eraseReps
  cases names with
  | nil => exact Iff.rfl
  | cons first rest =>
    rw [List.eraseRepsBy, mem_loop_eraseReps, List.mem_cons]
    simp only [List.not_mem_nil, or_false]

namespace Tree

theorem childName?_eq_some {parent location : Location} {name : String} :
    childName? parent location = some name ↔ location = parent ++ [name] := by
  unfold childName?
  cases hlast : location.getLast? with
  | none =>
    refine iff_of_false (by simp) ?_
    rintro rfl
    rw [List.getLast?_concat] at hlast
    cases hlast
  | some last =>
    dsimp only
    split
    · rename_i heq
      constructor
      · intro h
        cases h
        exact heq
      · rintro rfl
        rw [List.getLast?_concat] at hlast
        exact hlast.symm
    · rename_i hne
      refine iff_of_false (by simp) ?_
      rintro rfl
      rw [List.getLast?_concat] at hlast
      cases hlast
      exact hne rfl

/-- The names in a folder are those under which something stands there. -/
theorem mem_children_iff {t : Tree} {location : Location} {name : String} :
    name ∈ t.children location ↔ t.node? (location ++ [name]) ≠ none := by
  unfold children node?
  rw [mem_eraseReps, List.mem_mergeSort, List.mem_filterMap, if_neg (by simp)]
  constructor
  · rintro ⟨⟨place, node⟩, hmem, hname⟩
    obtain rfl := childName?_eq_some.mp hname
    intro hnone
    exact bne_iff_ne.mp (List.lookup_eq_none_iff.mp hnone _ hmem) rfl
  · intro hsome
    by_contra hnone
    push Not at hnone
    refine hsome (List.lookup_eq_none_iff.mpr fun entry hentry => bne_iff_ne.mpr fun heq => ?_)
    exact hnone entry hentry (childName?_eq_some.mpr heq.symm)

/-- The names that were in a folder stay there. -/
theorem mem_children_of_mem {fresh : String} {t t' : Tree} (h : Grown fresh t t') {l : Location}
    {name : String} (hn : name ∈ t.children l) : name ∈ t'.children l := by
  rw [mem_children_iff] at hn ⊢
  obtain ⟨node, hnode⟩ := Option.ne_none_iff_exists'.mp hn
  cases node with
  | file bytes =>
    obtain ⟨bytes', hb⟩ := h.file hnode
    rw [hb]
    exact Option.some_ne_none _
  | folder =>
    rw [h.folder.mpr hnode]
    exact Option.some_ne_none _
  | link target => exact absurd hnode h.old.no_link

/-- A name in a folder was there, or is that of a new file. -/
theorem mem_children_grown {fresh : String} {t t' : Tree} (h : Grown fresh t t') {l : Location}
    {name : String} (hn : name ∈ t'.children l) : name ∈ t.children l ∨ name = fresh := by
  rw [mem_children_iff] at hn ⊢
  by_cases hnone : t.node? (l ++ [name]) = none
  · rcases h.none_or_file hnone with hnone' | ⟨bytes, hb, hlast⟩
    · exact absurd hnone' hn
    · rw [List.getLast?_concat] at hlast
      exact .inr (Option.some.inj hlast)
  · exact .inl hnone

end Tree

/-! ## Endings of file names -/

namespace Pattern

theorem matches_extension {extensions : List String} {place : Cursor} {found : Found}
    (h : Matches (extension extensions) place found) :
    ∃ (start : Cursor) (name : Found), Matches (anyText extensions) start name ∧
      place.rest = '.' :: start.rest ∧ (name.after.rest = [] ∨ name.after.rest = ['\n']) := by
  unfold extension sequence sequence sequence at h
  cases h with
  | seq hdot hrest =>
    cases hrest with
    | seq htext hstop =>
      refine ⟨_, _, htext, matches_char hdot, ?_⟩
      cases hstop with
      | stop hs =>
        unfold atStop at hs
        split at hs
        · rename_i heq
          exact .inl heq
        · rename_i heq
          exact .inr heq
        · cases hs

theorem isMarkup_of_accepts {path : String} (h : markupFiles.accepts path = true) : IsMarkup path := by
  unfold accepts foundIn search? at h
  obtain ⟨found, hfound⟩ := Option.isSome_iff_exists.mp h
  obtain ⟨front, rest, hpath, hm⟩ := exists_skip_of_searchFrom? hfound
  obtain ⟨start, text, htext, hdot, hend⟩ := matches_extension hm
  have htexts : start.rest = "tsx".toList ++ text.after.rest ∨
      start.rest = "jsx".toList ++ text.after.rest := by
    cases htext with
    | eitherLeft hl => exact .inl (matches_literal hl)
    | eitherRight hr => exact .inr (matches_literal hr)
  have hplace : (Cursor.skip none front rest).rest ∈ markupEndings.map String.toList := by
    rw [hdot]
    rcases htexts with hs | hs <;> rcases hend with he | he <;> rw [hs, he] <;> decide
  obtain ⟨ending, hending, heq⟩ := List.mem_map.mp hplace
  exact ⟨ending, hending, front, heq ▸ hpath.symm⟩

end Pattern

/-! ## Paths of found files -/

namespace Context

variable {c : Context} {t t' : Tree} {accepts : String → Bool}

theorem isAbsolute_entryPath {folder name : String} (hf : Path.isAbsolute folder = false)
    (hn : Tree.IsName name) : Path.isAbsolute (entryPath folder name) = false := by
  unfold entryPath
  split
  · exact Path.isAbsolute_name (.of_name hn)
  · rename_i hne
    rw [String.append_assoc, Path.isAbsolute_append hne, hf]

theorem steps_entryPath (folder : String) {name : String} (hn : Tree.IsName name) :
    Path.steps (entryPath folder name) = Path.steps folder ++ [name] := by
  unfold entryPath
  split
  · rename_i hempty
    rw [hempty, Path.steps_empty, Path.steps_of_isStep (.of_name hn), List.nil_append]
  · rw [Path.steps_append_slash, Path.steps_of_isStep (.of_name hn)]

/-- The ending of a path is one of its last name. -/
theorem suffix_of_suffix_entryPath {folder name : String} {ending : List Char}
    (hslash : '/' ∉ ending) (h : ending <:+ (entryPath folder name).toList) :
    ending <:+ name.toList := by
  unfold entryPath at h
  split at h
  · exact h
  · have htail : '/' :: name.toList <:+ (folder ++ "/" ++ name).toList := by
      rw [String.toList_append, String.toList_append, List.append_assoc]
      exact List.suffix_append _ _
    rcases List.suffix_or_suffix_of_suffix h htail with hs | hs
    · rcases List.suffix_cons_iff.mp hs with rfl | hs
      · exact absurd (List.mem_cons_self ..) hslash
      · exact hs
    · exact absurd (hs.subset (List.mem_cons_self ..)) hslash

theorem access_of_mem_namesIn {steps : List String} {name : String} (h : name ∈ namesIn t steps) :
    ∃ l, t.access steps = .ok (l, .folder) ∧ t.node? (l ++ [name]) ≠ none := by
  unfold namesIn at h
  split at h
  · rename_i l haccess
    exact ⟨l, haccess, Tree.mem_children_iff.mp h⟩
  · cases h

theorem isName_of_mem_namesIn (ht : t.Named) {steps : List String} {name : String}
    (h : name ∈ namesIn t steps) : Tree.IsName name := by
  obtain ⟨l, -, hthere⟩ := access_of_mem_namesIn h
  obtain ⟨node, hnode⟩ := Option.ne_none_iff_exists'.mp hthere
  exact ht hnode

/-- The names in a folder whose entries are listed in order. -/
theorem namesIn_of_sorted {steps : List String} {l : Location}
    (haccess : t.access steps = .ok (l, .folder))
    (hsorted : (t.entries.filterMap fun entry => Tree.childName? l entry.1).Pairwise
      (Tree.nameLE · ·)) :
    namesIn t steps = (t.entries.filterMap fun entry => Tree.childName? l entry.1).eraseReps := by
  unfold namesIn Tree.children
  rw [haccess]
  dsimp only
  rw [List.mergeSort_of_pairwise hsorted]

/-! ## The way of a walk -/

/-- A walk of a folder comes to a path: to that of a file in the folder, or from a folder in it that
is entered. -/
inductive ComesTo (c : Context) (t : Tree) (accepts : String → Bool) :
    Nat → List String → String → String → Prop
  | take {left : Nat} {steps : List String} {folder name : String} (hname : name ∈ namesIn t steps)
    (hkind : entryKind t (steps ++ [name]) = .file) (haccepts : accepts (entryPath folder name) = true)
    (hignored : c.isIgnored (entryPath folder name) false = false) :
    ComesTo c t accepts (left + 1) steps folder (entryPath folder name)
  | enter {left : Nat} {steps : List String} {folder name path : String}
    (hname : name ∈ namesIn t steps) (hkind : entryKind t (steps ++ [name]) = .folder)
    (hskip : isSkippedName name = false) (hignored : c.isIgnored (entryPath folder name) true = false)
    (h : ComesTo c t accepts left (steps ++ [name]) (entryPath folder name) path) :
    ComesTo c t accepts (left + 1) steps folder path

/-- A walk finds the paths to which it comes. -/
theorem mem_walk_iff_comesTo {left : Nat} {steps : List String} {folder path : String} :
    path ∈ c.walk t accepts left steps folder ↔ c.ComesTo t accepts left steps folder path := by
  constructor
  · intro h
    induction left generalizing steps folder with
    | zero => cases h
    | succ left ih =>
      rw [walk, List.mem_flatMap] at h
      obtain ⟨name, hname, h⟩ := h
      dsimp only at h
      split at h
      · cases h
      · rename_i hkind
        split at h
        · cases h
        · rename_i hopen
          rw [Bool.or_eq_true, not_or, Bool.not_eq_true, Bool.not_eq_true] at hopen
          exact .enter hname hkind hopen.1 hopen.2 (ih h)
      · rename_i hkind
        split at h
        · rename_i htaken
          rw [Bool.and_eq_true, Bool.not_eq_true'] at htaken
          obtain rfl := List.mem_singleton.mp h
          exact .take hname hkind htaken.1 htaken.2
        · cases h
  · intro h
    induction h with
    | take hname hkind haccepts hignored =>
      rw [walk, List.mem_flatMap]
      refine ⟨_, hname, ?_⟩
      rw [hkind]
      dsimp only
      rw [haccepts, hignored]
      exact List.mem_singleton_self _
    | enter hname hkind hskip hignored _ ih =>
      rw [walk, List.mem_flatMap]
      refine ⟨_, hname, ?_⟩
      rw [hkind]
      dsimp only
      rw [hskip, hignored]
      exact ih

/-- A walk comes to paths that are accepted and not ignored. -/
theorem ComesTo.accepted {left : Nat} {steps : List String} {folder path : String}
    (h : c.ComesTo t accepts left steps folder path) :
    accepts path = true ∧ c.isIgnored path false = false := by
  induction h with
  | take _ _ haccepts hignored => exact ⟨haccepts, hignored⟩
  | enter _ _ _ _ _ ih => exact ih

/-- A walk goes to a file only through folders that it does not skip. -/
theorem ComesTo.exists_entry (ht : t.Named) {left : Nat} {steps : List String}
    {folder path : String} (h : c.ComesTo t accepts left steps folder path)
    (hf : Path.isAbsolute folder = false) (hopen : ∀ n ∈ Path.steps folder, isSkippedName n = false) :
    ∃ folder' name, path = entryPath folder' name ∧ Path.isAbsolute folder' = false ∧
      Tree.IsName name ∧ ∀ n ∈ Path.steps folder', isSkippedName n = false := by
  induction h with
  | take hname => exact ⟨_, _, rfl, hf, isName_of_mem_namesIn ht hname, hopen⟩
  | @enter left steps folder name path hname _ hskip _ _ ih =>
    have hn := isName_of_mem_namesIn ht hname
    refine ih (isAbsolute_entryPath hf hn) fun n hmem => ?_
    rw [steps_entryPath folder hn, List.mem_append, List.mem_singleton] at hmem
    rcases hmem with hmem | rfl
    · exact hopen n hmem
    · exact hskip

/-- The folders on the way to a file that was found, and its name. -/
theorem exists_of_mem_findFiles (ht : t.Named) {p : Pattern} {path : String}
    (h : path ∈ c.findFiles t p) : p.accepts path = true ∧ ∃ folder name,
      path = entryPath folder name ∧ Path.isAbsolute folder = false ∧ Tree.IsName name ∧
        ∀ n ∈ Path.steps folder, isSkippedName n = false := by
  have hcomes := mem_walk_iff_comesTo.mp h
  refine ⟨hcomes.accepted.1, hcomes.exists_entry ht (by decide) ?_⟩
  rw [Path.steps_empty]
  exact fun _ hn => by cases hn

/-! ## Walks of a grown tree -/

theorem namesIn_grown (h : Tree.Grown ".gitignore" t t') {steps : List String} {name : String}
    (hn : name ∈ namesIn t' steps) : name ∈ namesIn t steps ∨ name = ".gitignore" := by
  have hfind := Tree.find_grown h steps
  unfold namesIn Tree.access at hn ⊢
  generalize t.find steps = place at hfind ⊢
  generalize t'.find steps = place' at hfind hn
  cases hfind with
  | folder l => exact Tree.mem_children_grown h hn
  | _ => cases hn

theorem isListedFile_eq {steps : List String} {l : Location}
    (haccess : t.access steps = .ok (l, .folder)) (name : String) :
    isListedFile t (steps ++ [name]) = match t.node? (l ++ [name]) with
      | some (.file _) => true
      | _ => false := by
  unfold isListedFile
  rw [List.dropLast_concat, haccess, List.getLast?_concat]
  rfl

theorem isListedFile_grown {fresh : String} (h : Tree.Grown fresh t t') {steps : List String}
    {name : String} (hname : name ∈ namesIn t steps) :
    isListedFile t' (steps ++ [name]) = isListedFile t (steps ++ [name]) := by
  obtain ⟨l, haccess, hnode⟩ := access_of_mem_namesIn hname
  have haccess' := (Tree.access_folder_grown h).mpr haccess
  rw [isListedFile_eq haccess, isListedFile_eq haccess']
  rcases h.folder_or_file hnode with ⟨hn, hn'⟩ | ⟨b, b', hn, hn'⟩ <;> rw [hn, hn']

theorem entryKind_grown {fresh : String} (h : Tree.Grown fresh t t') {steps : List String}
    {name : String} (hname : name ∈ namesIn t steps) :
    entryKind t' (steps ++ [name]) = entryKind t (steps ++ [name]) ∨
      entryKind t' (steps ++ [name]) = .unknown := by
  have hlisted := isListedFile_grown h hname
  have hfind := Tree.find_grown h (steps ++ [name])
  unfold entryKind Tree.access
  rw [hlisted]
  generalize t.find (steps ++ [name]) = place at hfind ⊢
  generalize t'.find (steps ++ [name]) = place' at hfind ⊢
  cases hfind with
  | blocked => exact .inr rfl
  | _ => exact .inl rfl

/-- What a walk of the grown tree knows of an entry that was there was so before. -/
theorem entryKind_of_grown {fresh : String} (h : Tree.Grown fresh t t') {steps : List String}
    {name : String} (hname : name ∈ namesIn t steps) {kind : Entry} (hknown : kind ≠ .unknown)
    (hkind : entryKind t' (steps ++ [name]) = kind) : entryKind t (steps ++ [name]) = kind := by
  rcases entryKind_grown h hname with hsame | hunknown
  · rw [← hsame, hkind]
  · exact absurd (hkind.symm.trans hunknown) hknown

/-- A walk of the grown tree comes to nothing new but files of ignored paths. -/
theorem ComesTo.of_grown (h : Tree.Grown ".gitignore" t t')
    (haccepts : ∀ folder, accepts (entryPath folder ".gitignore") = false) {left : Nat}
    {steps : List String} {folder path : String} (hp : c.ComesTo t' accepts left steps folder path) :
    c.ComesTo t accepts left steps folder path := by
  induction hp with
  | take hname hkind haccepted hignored =>
    rcases namesIn_grown h hname with hold | rfl
    · have hkind := entryKind_of_grown h hold (by decide) hkind
      exact .take hold hkind haccepted hignored
    · rw [haccepts] at haccepted
      cases haccepted
  | enter hname hkind hskip hignored _ ih =>
    rcases namesIn_grown h hname with hold | rfl
    · have hkind := entryKind_of_grown h hold (by decide) hkind
      exact .enter hold hkind hskip hignored ih
    · exact absurd hskip (by decide)

/-! ## Files with markup -/

theorem isMarkup_entryPath {folder name : String} (h : IsMarkup (entryPath folder name)) :
    IsMarkup name := by
  have hendings : ∀ ending ∈ markupEndings, '/' ∉ ending.toList := by decide
  obtain ⟨ending, hending, hsuffix⟩ := h
  exact ⟨ending, hending, suffix_of_suffix_entryPath (hendings ending hending) hsuffix⟩

/-- A file with markup that was found has a name of such a file. -/
theorem exists_of_mem_markupFiles (ht : t.Ordinary) {path : String}
    (h : path ∈ c.findFiles t .markupFiles) : ∃ folder name, path = entryPath folder name ∧
      Path.isAbsolute folder = false ∧ Tree.IsName name ∧ IsMarkup name := by
  obtain ⟨haccepts, folder, name, rfl, hf, hn, -⟩ := exists_of_mem_findFiles ht.named h
  exact ⟨folder, name, rfl, hf, hn, isMarkup_entryPath (Pattern.isMarkup_of_accepts haccepts)⟩

/-- What a walk of the grown tree finds was found before. -/
theorem mem_findFiles_of_grown (h : Tree.Grown ".gitignore" t t') {path : String}
    (hp : path ∈ c.findFiles t' .markupFiles) : path ∈ c.findFiles t .markupFiles := by
  refine mem_walk_iff_comesTo.mpr ((mem_walk_iff_comesTo.mp hp).of_grown h fun folder => ?_)
  rw [Bool.eq_false_iff]
  intro haccepts
  exact Amendment.not_isMarkup _ (by decide) (isMarkup_entryPath (Pattern.isMarkup_of_accepts haccepts))

end Context

end Checkup
