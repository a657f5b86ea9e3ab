import Checkup.Proofs.Scan.Alike
import Checkup.Proofs.Tree.Links

/-!
# Exactly what a walk finds

A walk finds the files that lie in folders which it enters, down to its depth. It finds each of them
once, in the order of the names on their paths. Links are followed, also those that lead back up: then
the names on the path are those by which the walk came, and the depth bounds how often.

* `Tree.ListsFile`: the entries that are files to a walk.
* `entryKind_eq_file_iff`: how a walk tells them.
* `mem_walk_iff`: what a walk of a folder finds.
* `pairwise_walk`: the order in which it does.
* `mem_findFilesTo_iff`, `findFilesTo_exact`: the files of a scan root.
-/

namespace Checkup

/-- A folder lists a file, or a link that leads to one or to nothing. A link that cannot be followed
for another cause is no file. -/
inductive Tree.ListsFile (t : Tree) (folder : List String) (name : String) : Prop
  | file {l : Location} {bytes : ByteArray} (hfolder : t.access folder = .ok (l, .folder))
    (hnode : t.node? (l ++ [name]) = some (.file bytes))
  | link {l k : Location} {target : String} {node : Node}
    (hfolder : t.access folder = .ok (l, .folder))
    (hnode : t.node? (l ++ [name]) = some (.link target))
    (haccess : t.access (folder ++ [name]) = .ok (k, node)) (hfile : node ≠ .folder)
  | dangling {l : Location} {target : String} (hfolder : t.access folder = .ok (l, .folder))
    (hnode : t.node? (l ++ [name]) = some (.link target))
    (haccess : t.access (folder ++ [name]) = .error .missing)

theorem Tree.ListsFile.mem_namesIn {t : Tree} {folder : List String} {name : String}
    (h : t.ListsFile folder name) : name ∈ Context.namesIn t folder := by
  obtain ⟨l, hfolder, hnode⟩ :
      ∃ l, t.access folder = .ok (l, .folder) ∧ t.node? (l ++ [name]) ≠ none := by
    cases h with
    | file hfolder hnode | link hfolder hnode | dangling hfolder hnode =>
      exact ⟨_, hfolder, by rw [hnode]; exact Option.some_ne_none _⟩
  unfold Context.namesIn
  rw [hfolder]
  exact Tree.mem_children_iff.mpr hnode

namespace Context

variable {c : Context} {t : Tree} {accepts : String → Bool} {left : Nat} {steps above : List String}
  {folder name path : String}

/-! ## Kinds of entries -/

theorem entryKind_eq_folder_iff :
    entryKind t steps = .folder ↔ ∃ l, t.access steps = .ok (l, .folder) := by
  unfold entryKind
  cases t.access steps with
  | ok place =>
    obtain ⟨l, node⟩ := place
    cases node with
    | folder => exact iff_of_true rfl ⟨l, rfl⟩
    | _ => exact iff_of_false (fun h => by cases h) fun ⟨_, h⟩ => by cases h
  | error fault =>
    refine iff_of_false (fun h => ?_) fun ⟨_, h⟩ => by cases h
    cases fault with
    | nameTooLong =>
      dsimp only at h
      split at h <;> cases h
    | _ => cases h

/-- A file is one to a walk, whatever the length of its path. -/
theorem entryKind_of_file (hname : Tree.IsName name) {l : Location} {bytes : ByteArray}
    (hfolder : t.access steps = .ok (l, .folder))
    (hnode : t.node? (l ++ [name]) = some (.file bytes)) : entryKind t (steps ++ [name]) = .file := by
  have hlisted : isListedFile t (steps ++ [name]) = true := by rw [isListedFile_eq hfolder, hnode]
  unfold entryKind
  rw [hlisted]
  rcases Tree.access_entry hfolder hname.ne_here hname.ne_up hnode (fun _ h => by cases h) with h | h
  · rw [h]
  · rw [h]
    rfl

/-- A folder is no file to a walk. -/
theorem entryKind_of_folder (hname : Tree.IsName name) {l : Location}
    (hfolder : t.access steps = .ok (l, .folder)) (hnode : t.node? (l ++ [name]) = some .folder) :
    entryKind t (steps ++ [name]) ≠ .file := by
  have hlisted : isListedFile t (steps ++ [name]) = false := by rw [isListedFile_eq hfolder, hnode]
  unfold entryKind
  rw [hlisted]
  rcases Tree.access_entry hfolder hname.ne_here hname.ne_up hnode (fun _ h => by cases h) with h | h
  · rw [h]
    exact fun h => by cases h
  · rw [h]
    exact fun h => by cases h

/-- A link is a file to a walk if it leads to one or to nothing. -/
theorem entryKind_of_link {l : Location} {target : String}
    (hfolder : t.access steps = .ok (l, .folder))
    (hnode : t.node? (l ++ [name]) = some (.link target)) : entryKind t (steps ++ [name]) = .file ↔
      (∃ k node, t.access (steps ++ [name]) = .ok (k, node) ∧ node ≠ .folder) ∨
        t.access (steps ++ [name]) = .error .missing := by
  have hlisted : isListedFile t (steps ++ [name]) = false := by rw [isListedFile_eq hfolder, hnode]
  unfold entryKind
  rw [hlisted]
  cases t.access (steps ++ [name]) with
  | ok place =>
    obtain ⟨k, node⟩ := place
    cases node with
    | folder =>
      refine iff_of_false (fun h => by cases h) ?_
      rintro (⟨_, _, h, hne⟩ | h)
      · cases h
        exact hne rfl
      · cases h
    | _ => exact iff_of_true rfl (.inl ⟨k, _, rfl, fun h => by cases h⟩)
  | error fault =>
    cases fault with
    | missing => exact iff_of_true rfl (.inr rfl)
    | _ =>
      refine iff_of_false (fun h => by cases h) ?_
      rintro (⟨_, _, h, -⟩ | h) <;> cases h

/-- A walk takes for a file what the folder lists as one. -/
theorem entryKind_eq_file_iff (hname : Tree.IsName name) (hmem : name ∈ namesIn t steps) :
    entryKind t (steps ++ [name]) = .file ↔ t.ListsFile steps name := by
  obtain ⟨l, hfolder, hthere⟩ := access_of_mem_namesIn hmem
  have hsame : ∀ {l'}, t.access steps = .ok (l', .folder) → l' = l := by
    intro l' h
    rw [hfolder] at h
    cases h
    rfl
  cases hnode : t.node? (l ++ [name]) with
  | none => exact absurd hnode hthere
  | some node =>
    cases node with
    | file bytes => exact iff_of_true (entryKind_of_file hname hfolder hnode) (.file hfolder hnode)
    | folder =>
      refine iff_of_false (entryKind_of_folder hname hfolder hnode) fun h => ?_
      cases h with
      | file hfolder' hnode' | link hfolder' hnode' | dangling hfolder' hnode' =>
        rw [hsame hfolder', hnode] at hnode'
        cases hnode'
    | link target =>
      rw [entryKind_of_link hfolder hnode]
      constructor
      · rintro (⟨k, node, haccess, hfile⟩ | haccess)
        · exact .link hfolder hnode haccess hfile
        · exact .dangling hfolder hnode haccess
      · intro h
        cases h with
        | file hfolder' hnode' =>
          rw [hsame hfolder', hnode] at hnode'
          cases hnode'
        | link _ _ haccess hfile => exact .inl ⟨_, _, haccess, hfile⟩
        | dangling _ _ haccess => exact .inr haccess

/-! ## What a walk enters and takes -/

/-- A walk enters a folder of a folder of the root: it leads to a folder, its name is not one that is
skipped, and no ignore rule matches it. -/
structure Enters (c : Context) (t : Tree) (above : List String) (name : String) : Prop where
  folder : ∃ l, t.access (c.root ++ above ++ [name]) = .ok (l, .folder)
  not_skipped : isSkippedName name = false
  not_ignored : c.isIgnored (Path.relative (above ++ [name])) true = false

/-- A walk takes a file of a folder of the root: it is accepted, and no ignore rule matches it. -/
structure Takes (c : Context) (t : Tree) (accepts : String → Bool) (above : List String)
    (name : String) : Prop where
  listed : t.ListsFile (c.root ++ above) name
  accepted : accepts (Path.relative (above ++ [name])) = true
  not_ignored : c.isIgnored (Path.relative (above ++ [name])) false = false

theorem Enters.mem_namesIn (h : c.Enters t above name) : name ∈ namesIn t (c.root ++ above) := by
  have hopen := h.not_skipped
  obtain ⟨l, haccess⟩ := h.folder
  refine mem_namesIn_of_access ?_ ?_ haccess <;> rintro rfl <;> exact absurd hopen (by decide)

theorem entryPath_folderPath (hnames : ∀ n ∈ above ++ [name], Path.IsStep n) :
    entryPath (folderPath "" above) name = Path.relative (above ++ [name]) := by
  rw [← Path.folderPath_empty (by simp) hnames, folderPath, folderPath, List.foldl_concat]

/-- What is found at an entry of a folder. -/
theorem mem_found_iff (ht : t.Named) (hmem : name ∈ namesIn t (c.root ++ above))
    (hnames : ∀ n ∈ above ++ [name], Path.IsStep n) :
    path ∈ c.found t accepts left (c.root ++ above) (folderPath "" above) name ↔
      (c.Enters t above name ∧ path ∈ c.walk t accepts left (c.root ++ (above ++ [name]))
        (folderPath "" (above ++ [name]))) ∨
      (c.Takes t accepts above name ∧ path = Path.relative (above ++ [name])) := by
  have hfolder := @entryKind_eq_folder_iff t (c.root ++ above ++ [name])
  have hfile := entryKind_eq_file_iff (isName_of_mem_namesIn ht hmem) hmem
  have hpath := entryPath_folderPath hnames
  have hbelow : folderPath "" (above ++ [name]) = Path.relative (above ++ [name]) :=
    Path.folderPath_empty (by simp) hnames
  unfold found
  rw [hpath, hbelow, ← List.append_assoc]
  cases hkind : entryKind t (c.root ++ above ++ [name]) with
  | unknown =>
    refine iff_of_false List.not_mem_nil ?_
    rintro (⟨h, -⟩ | ⟨h, -⟩)
    · cases hkind.symm.trans (hfolder.mpr h.folder)
    · cases hkind.symm.trans (hfile.mpr h.listed)
  | folder =>
    have hnot : ¬ c.Takes t accepts above name := fun h => by
      cases hkind.symm.trans (hfile.mpr h.listed)
    dsimp only
    split
    · rename_i hskip
      refine iff_of_false List.not_mem_nil ?_
      rintro (⟨h, -⟩ | ⟨h, -⟩)
      · rw [h.not_skipped, h.not_ignored] at hskip
        cases hskip
      · exact hnot h
    · rename_i hskip
      rw [Bool.or_eq_true, not_or, Bool.not_eq_true, Bool.not_eq_true] at hskip
      have henters : c.Enters t above name := ⟨hfolder.mp hkind, hskip.1, hskip.2⟩
      exact ⟨fun h => .inl ⟨henters, h⟩, fun h => (h.resolve_right fun h => hnot h.1).2⟩
  | file =>
    have hnot : ¬ c.Enters t above name := fun h => by
      cases hkind.symm.trans (hfolder.mpr h.folder)
    dsimp only
    split
    · rename_i htaken
      rw [Bool.and_eq_true, Bool.not_eq_true'] at htaken
      have htakes : c.Takes t accepts above name := ⟨hfile.mp hkind, htaken.1, htaken.2⟩
      rw [List.mem_singleton]
      exact ⟨fun h => .inr ⟨htakes, h⟩, fun h => (h.resolve_left fun h => hnot h.1).2⟩
    · rename_i htaken
      refine iff_of_false List.not_mem_nil ?_
      rintro (⟨h, -⟩ | ⟨h, -⟩)
      · exact hnot h
      · rw [h.accepted, h.not_ignored] at htaken
        exact htaken rfl

/-- The folders on a way, each with those above it: the first one, and the folders on the rest. -/
theorem forall_on_way_cons {P : List String → String → Prop} {first : String} {rest : List String} :
    (∀ q n, q ++ [n] <+: first :: rest → P q n) ↔
      P [] first ∧ ∀ q n, q ++ [n] <+: rest → P (first :: q) n := by
  constructor
  · intro h
    refine ⟨h [] first ⟨rest, rfl⟩, fun q n hq => h (first :: q) n ?_⟩
    exact List.cons_prefix_cons.mpr ⟨rfl, hq⟩
  · rintro ⟨hfirst, hrest⟩ q n hq
    cases q with
    | nil =>
      obtain ⟨rfl, -⟩ := List.cons_prefix_cons.mp hq
      exact hfirst
    | cons other q =>
      obtain ⟨rfl, hq'⟩ := List.cons_prefix_cons.mp hq
      exact hrest q n hq'

/-- What a walk of a folder of the root finds: the files that it takes in folders down to its depth
to which it enters folders only. -/
theorem mem_walk_iff (ht : t.Named) (habove : ∀ n ∈ above, Path.IsStep n) :
    path ∈ c.walk t accepts left (c.root ++ above) (folderPath "" above) ↔
      ∃ folders name, path = Path.relative (above ++ folders ++ [name]) ∧ folders.length < left ∧
        (∀ q n, q ++ [n] <+: folders → c.Enters t (above ++ q) n) ∧
        c.Takes t accepts (above ++ folders) name := by
  induction left generalizing above with
  | zero => exact iff_of_false List.not_mem_nil fun ⟨_, _, _, h, _⟩ => absurd h (Nat.not_lt_zero _)
  | succ left ih =>
    have hnames : ∀ {name}, name ∈ namesIn t (c.root ++ above) →
        ∀ n ∈ above ++ [name], Path.IsStep n := by
      intro name hmem n hn
      rcases List.mem_append.mp hn with hn | hn
      · exact habove n hn
      · rw [List.mem_singleton.mp hn]
        exact .of_name (isName_of_mem_namesIn ht hmem)
    rw [walk_succ, List.mem_flatMap]
    constructor
    · rintro ⟨name, hmem, hfound⟩
      rcases (mem_found_iff ht hmem (hnames hmem)).mp hfound with ⟨henters, hpath⟩ | ⟨htakes, hpath⟩
      · obtain ⟨folders, file, hpath, hlength, hway, htakes⟩ := (ih (hnames hmem)).mp hpath
        refine ⟨name :: folders, file, ?_, Nat.succ_lt_succ hlength, forall_on_way_cons.mpr ⟨?_, ?_⟩, ?_⟩
        · rwa [List.append_cons above]
        · rwa [List.append_nil]
        · intro q n hq
          rw [List.append_cons]
          exact hway q n hq
        · rwa [List.append_cons]
      · refine ⟨[], name, ?_, Nat.succ_pos left, fun q n hq => ?_, ?_⟩
        · rwa [List.append_nil]
        · simp at hq
        · rwa [List.append_nil]
    · rintro ⟨folders, file, hpath, hlength, hway, htakes⟩
      cases folders with
      | nil =>
        rw [List.append_nil] at hpath htakes
        have hmem := htakes.listed.mem_namesIn
        exact ⟨file, hmem, (mem_found_iff ht hmem (hnames hmem)).mpr (.inr ⟨htakes, hpath⟩)⟩
      | cons name folders =>
        obtain ⟨henters, hway⟩ := forall_on_way_cons.mp hway
        rw [List.append_nil] at henters
        have hmem := henters.mem_namesIn
        refine ⟨name, hmem, (mem_found_iff ht hmem (hnames hmem)).mpr (.inl ⟨henters, ?_⟩)⟩
        rw [List.append_cons above name folders] at hpath htakes
        refine (ih (hnames hmem)).mpr ⟨folders, file, hpath, Nat.lt_of_succ_lt_succ hlength, ?_, htakes⟩
        intro q n hq
        rw [← List.append_cons]
        exact hway q n hq

/-! ## The order -/

theorem sorted_namesIn (t : Tree) (steps : List String) : (namesIn t steps).Pairwise (· < ·) := by
  unfold namesIn
  split
  · rename_i l _
    refine ((Tree.sorted_children t l).and (Tree.nodup_children t l)).imp fun {a b} h => ?_
    have hle : ¬ b < a := by simpa [Tree.nameLE] using h.1
    by_contra hnot
    exact h.2 (String.le_antisymm (String.not_lt.mp hle) (String.not_lt.mp hnot))
  · exact List.Pairwise.nil

theorem steps_entryPath_append (folder rest : String) :
    Path.steps (entryPath folder rest) = Path.steps folder ++ Path.steps rest := by
  unfold entryPath
  split
  · rename_i hempty
    rw [hempty, Path.steps_empty, List.nil_append]
  · exact Path.steps_append_slash folder rest

/-- What is found at an entry has the entry on its path. -/
theorem steps_of_mem_found (hname : Tree.IsName name)
    (h : path ∈ c.found t accepts left steps folder name) :
    ∃ more, Path.steps path = Path.steps folder ++ name :: more := by
  have hstep := Path.steps_of_isStep (.of_name hname)
  obtain ⟨rest, rfl, hrest⟩ := exists_of_mem_found hname.ne_empty h
  rw [steps_entryPath_append]
  rcases hrest with rfl | ⟨more, rfl⟩
  · exact ⟨[], by rw [hstep]⟩
  · exact ⟨Path.steps more, by rw [Path.steps_append_slash, hstep, List.singleton_append]⟩

/-- A walk finds files in the order of the names on their paths. -/
theorem pairwise_walk (ht : t.Named) (c : Context) (accepts : String → Bool) (left : Nat)
    (steps : List String) (folder : String) :
    ((c.walk t accepts left steps folder).map Path.steps).Pairwise (· < ·) := by
  induction left generalizing steps folder with
  | zero => exact List.Pairwise.nil
  | succ left ih =>
    rw [walk_succ, List.map_flatMap, List.pairwise_flatMap]
    constructor
    · intro name _
      unfold found
      split
      · exact List.Pairwise.nil
      · split
        · exact List.Pairwise.nil
        · exact ih _ _
      · split
        · exact List.pairwise_singleton _ _
        · exact List.Pairwise.nil
    · refine (sorted_namesIn t steps).imp_of_mem fun {first second} hfirst hsecond hlt x hx y hy => ?_
      obtain ⟨path, hpath, rfl⟩ := List.mem_map.mp hx
      obtain ⟨path', hpath', rfl⟩ := List.mem_map.mp hy
      obtain ⟨more, hmore⟩ := steps_of_mem_found (isName_of_mem_namesIn ht hfirst) hpath
      obtain ⟨more', hmore'⟩ := steps_of_mem_found (isName_of_mem_namesIn ht hsecond) hpath'
      rw [hmore, hmore']
      exact List.append_left_lt (List.cons_lt_cons_iff.mpr (.inl hlt))

/-! ## The files of a scan root -/

/-- A file is one that a walk down to a depth finds in folders of the root. -/
structure Finds (c : Context) (t : Tree) (accepts : String → Bool) (depth : Int)
    (folders : List String) (name : String) : Prop where
  shallow : (folders.length : Int) ≤ depth
  entered : ∀ above folder, above ++ [folder] <+: folders → c.Enters t above folder
  taken : c.Takes t accepts folders name

theorem mem_findFilesTo_iff (ht : t.Named) {depth : Int} : path ∈ c.findFilesTo t accepts depth ↔
    ∃ folders name, path = Path.relative (folders ++ [name]) ∧
      c.Finds t accepts depth folders name := by
  have hwalk := @mem_walk_iff c t accepts (depth + 1).toNat [] path ht (List.forall_mem_nil _)
  rw [List.append_nil] at hwalk
  refine hwalk.trans ?_
  constructor
  · rintro ⟨folders, name, hpath, hlength, hway, htakes⟩
    exact ⟨folders, name, hpath, by omega, hway, htakes⟩
  · rintro ⟨folders, name, hpath, hfinds⟩
    have hshallow := hfinds.shallow
    exact ⟨folders, name, hpath, by omega, hfinds.entered, hfinds.taken⟩

/-- The names on the path of a found file are proper ones. -/
theorem Finds.isName (ht : t.Named) {depth : Int} {folders : List String}
    (h : c.Finds t accepts depth folders name) : ∀ n ∈ folders ++ [name], Tree.IsName n := by
  intro n hn
  rcases List.mem_append.mp hn with hn | hn
  · obtain ⟨q, rest, rfl⟩ := List.append_of_mem hn
    exact isName_of_mem_namesIn ht (h.entered q n ⟨rest, by simp⟩).mem_namesIn
  · rw [List.mem_singleton.mp hn]
    exact isName_of_mem_namesIn ht h.taken.listed.mem_namesIn

end Context

end Checkup
