import Checkup.Proofs.Project.Workspaces
import Checkup.Proofs.Tree.Links
import Checkup.Proofs.Tree.Seeing

/-!
# What is told of workspaces

A workspace is told of by its path and by the manifest in its directory, if there is one that can be
read: its kind is that of what the manifest depends on, and its name the one that the manifest states.

* `HasManifest`, `HasName`, `DependsOnFramework`: what a manifest says.
* `Tells`: the members that are told of a directory; `Describes`: what is told by them.
* `exists_describe`: a directory below the root can be told of.
-/

namespace Checkup.Workspaces

variable {t : Tree} {root : List String}

/-- A directory has a manifest with these members. -/
def HasManifest (t : Tree) (directory : Location) (members : Json.Members) : Prop :=
  ∃ bytes text, t.node? (directory ++ [Manifest.fileName]) = some (.file bytes) ∧
    Tree.decodeText bytes = .ok text ∧ Json.parse? text = some (.obj members)

/-- The manifest depends on the framework, for running or for development. -/
def DependsOnFramework (members : Json.Members) : Prop :=
  ∃ name ∈ ["dependencies", "devDependencies"], ∃ inner, members.get? name = some (.obj inner) ∧
    .text "next" ∈ Json.Members.keys inner

/-- The manifest has a name that is a string and not empty. -/
def HasName (members : Json.Members) (name : Label) : Prop :=
  ∃ value, members.get? "name" = some value ∧ value.text? = some name ∧ name ≠ .text ""

/-- A workspace tells of the directory at some names below the root. -/
structure Describes (t : Tree) (root : List String) (d : List String) (w : Workspace) : Prop where
  path : w.path = Text.joinWith "/" d
  absolutePath : w.absolutePath = Path.absolute (root ++ d)
  manifest : w.hasManifest = true ↔ t.node? (root ++ d ++ [Manifest.fileName]) ≠ none
  framework : w.kind = .frameworkApp ↔
    ∃ members, HasManifest t (root ++ d) members ∧ DependsOnFramework members
  generic : w.kind = .frameworkApp ∨ w.kind = .generic
  named : ∀ members, HasManifest t (root ++ d) members → ∀ name, HasName members name → w.name = name
  unnamed : (∀ members, HasManifest t (root ++ d) members → ∀ name, ¬ HasName members name) →
    w.name = .text (d.getLastD "")

theorem has_iff {members : Json.Members} {key : Label} :
    members.has key = true ↔ key ∈ members.keys := by
  unfold Json.Members.has
  induction members with
  | nil => exact iff_of_false Bool.false_ne_true List.not_mem_nil
  | cons member rest ih =>
    obtain ⟨k, v⟩ := member
    have hkeys : Json.Members.keys ((k, v) :: rest) = k :: Json.Members.keys rest := rfl
    rw [Json.Members.get?_cons, hkeys, List.mem_cons, ← ih]
    by_cases hk : key = k
    · simp [hk]
    · simp [hk]

theorem mem_keys_merge {first second : Json.Members} {key : Label} :
    key ∈ (first.merge second).keys ↔ key ∈ first.keys ∨ key ∈ second.keys := by
  induction second generalizing first with
  | nil => exact (or_iff_left List.not_mem_nil).symm
  | cons member rest ih =>
    obtain ⟨k, v⟩ := member
    have hkeys : Json.Members.keys ((k, v) :: rest) = k :: Json.Members.keys rest := rfl
    have hmerge : first.merge ((k, v) :: rest) = (first.put k v).merge rest := rfl
    rw [hmerge, ih, hkeys, Json.Members.keys_put]
    split
    · rename_i hk
      grind
    · grind

theorem packageKind_iff {members : Json.Members} :
    packageKind members = .frameworkApp ↔ DependsOnFramework members := by
  have hsection {name : String} : .text "next" ∈ ((Manifest.section? members name).getD []).keys ↔
      ∃ inner, members.get? name = some (.obj inner) ∧ .text "next" ∈ Json.Members.keys inner := by
    unfold Manifest.section?
    cases members.get? name with
    | none => exact iff_of_false List.not_mem_nil fun ⟨_, h, _⟩ => by cases h
    | some value =>
      cases value with
      | obj found => exact ⟨fun h => ⟨found, rfl, h⟩, fun ⟨_, h, hkey⟩ => by cases h; exact hkey⟩
      | _ => exact iff_of_false List.not_mem_nil fun ⟨_, h, _⟩ => by cases h
  have hhas : (Manifest.dependencies members).has frameworkDependency = true ↔
      DependsOnFramework members := by
    unfold Manifest.dependencies Manifest.dependencySections frameworkDependency DependsOnFramework
    rw [has_iff, List.foldl_cons, List.foldl_cons, List.foldl_nil, mem_keys_merge, mem_keys_merge,
      hsection, hsection]
    have hempty : .text "next" ∉ Json.Members.keys [] := List.not_mem_nil
    simp only [hempty, false_or, List.mem_cons, List.not_mem_nil, or_false, exists_eq_or_imp,
      exists_eq_left]
  unfold packageKind
  split
  · rename_i h
    exact iff_of_true rfl (hhas.mp h)
  · rename_i h
    exact iff_of_false (by decide) fun hdepends => h (hhas.mpr hdepends)

theorem label?_eq_some {members : Json.Members} {name : Label} :
    Manifest.label? members "name" = some name ↔ HasName members name := by
  unfold Manifest.label? Json.label? HasName
  simp only [Option.bind_eq_some_iff, Option.filter_eq_some_iff, decide_eq_true_eq]

/-- The members that a manifest's text has. -/
def membersIn (text : Option String) : Option Json.Members :=
  (text.bind Json.parse?).bind Json.members?

theorem hasManifest_iff {directory : Location} {members : Json.Members} :
    HasManifest t directory members ↔
      membersIn (Tree.nodeText (t.node? (directory ++ [Manifest.fileName]))) = some members := by
  unfold HasManifest membersIn
  constructor
  · rintro ⟨bytes, text, hnode, hdecode, hparse⟩
    rw [hnode, Tree.nodeText, hdecode]
    dsimp only [Except.toOption, Option.bind_some]
    rw [hparse]
    rfl
  · intro h
    obtain ⟨value, hvalue, hmembers⟩ := Option.bind_eq_some_iff.mp h
    obtain ⟨text, htext, hparse⟩ := Option.bind_eq_some_iff.mp hvalue
    cases hnode : t.node? (directory ++ [Manifest.fileName]) with
    | none =>
      rw [hnode] at htext
      cases htext
    | some node =>
      rw [hnode] at htext
      cases node with
      | folder => cases htext
      | link target => cases htext
      | file bytes =>
        cases value with
        | obj found =>
          cases hmembers
          rw [Tree.nodeText] at htext
          cases hdecode : Tree.decodeText bytes with
          | error fault =>
            rw [hdecode] at htext
            cases htext
          | ok text' =>
            rw [hdecode] at htext
            cases htext
            exact ⟨bytes, text, rfl, hdecode, hparse⟩
        | _ => cases hmembers

/-- A directory has one manifest. -/
theorem HasManifest.unique {directory : Location} {members members' : Json.Members}
    (h : HasManifest t directory members) (h' : HasManifest t directory members') :
    members = members' :=
  Option.some.inj ((hasManifest_iff.mp h).symm.trans (hasManifest_iff.mp h'))

/-- The members that are told of a directory: those of its manifest, or none without one. -/
def Tells (t : Tree) (directory : Location) (members : Json.Members) : Prop :=
  HasManifest t directory members ∨
    (∀ other, ¬ HasManifest t directory other) ∧ members = []

theorem tells_read (ht : t.Ordinary) {directory : Location}
    (hplain : Tree.Plain (directory ++ [Manifest.fileName]))
    (hfits : Tree.Fits (directory ++ [Manifest.fileName])) :
    Tells t directory (Manifest.read t directory) := by
  have hread : Manifest.read t directory =
      (membersIn (t.content (directory ++ [Manifest.fileName]))).getD [] := by
    unfold Manifest.read membersIn Tree.content
    cases t.readText (directory ++ [Manifest.fileName]) with
    | error fault => rfl
    | ok text => rfl
  rw [Tree.content_eq ht hplain hfits] at hread
  unfold Tells
  simp only [hasManifest_iff]
  rw [hread]
  cases membersIn (Tree.nodeText (t.node? (directory ++ [Manifest.fileName]))) with
  | none => exact .inr ⟨fun _ h => (by cases h), rfl⟩
  | some members => exact .inl rfl

/-- Without a file there is no manifest. -/
theorem tells_nil {directory : Location} (h : t.node? (directory ++ [Manifest.fileName]) = none) :
    Tells t directory [] := by
  refine .inr ⟨?_, rfl⟩
  rintro other ⟨bytes, text, hnode, -⟩
  rw [h] at hnode
  cases hnode

variable {directory : Location} {members : Json.Members}

theorem Tells.exists_iff (h : Tells t directory members) {p : Json.Members → Prop} (hp : ¬ p []) :
    (∃ other, HasManifest t directory other ∧ p other) ↔ p members := by
  rcases h with h | ⟨hnone, rfl⟩
  · constructor
    · rintro ⟨other, hother, hp⟩
      rwa [h.unique hother]
    · intro hp
      exact ⟨members, h, hp⟩
  · refine iff_of_false ?_ hp
    rintro ⟨other, hother, -⟩
    exact hnone other hother

theorem Tells.framework_iff (h : Tells t directory members) :
    packageKind members = .frameworkApp ↔
      ∃ other, HasManifest t directory other ∧ DependsOnFramework other := by
  rw [packageKind_iff, h.exists_iff]
  rintro ⟨_, -, _, hget, -⟩
  cases hget

theorem Tells.hasName_iff (h : Tells t directory members) {name : Label} :
    Manifest.label? members "name" = some name ↔
      ∃ other, HasManifest t directory other ∧ HasName other name := by
  rw [label?_eq_some, h.exists_iff (p := (HasName · name))]
  rintro ⟨_, hget, -⟩
  cases hget

/-- What is told of a directory below the root, unless its manifest is nested too deep. -/
theorem exists_describe (ht : t.Ordinary) {d : List String} (hd : Steps d) (hne : d ≠ [])
    (hfolder : t.node? (root ++ d) = some .folder)
    (hfits : Tree.Fits (root ++ d ++ [Manifest.fileName]))
    (hdeep : ¬ Manifest.IsTooDeep t (root ++ d)) :
    ∃ w, describe t root (root ++ d) (Text.joinWith "/" d) = .ok w ∧ Describes t root d w := by
  have hplain : Tree.Plain (root ++ d ++ [Manifest.fileName]) :=
    (ht.plain hfolder).concat (by decide) (by decide)
  have hexists := Tree.exists?_eq ht hplain hfits
  have hsteps : Path.steps (Text.joinWith "/" d) = d := Path.steps_joinWith hd
  have hlast : (root ++ d).getLast?.getD "" = d.getLastD "" := by
    rw [List.getLast?_append_of_ne_nil _ hne, List.getLastD_eq_getLast?]
  obtain ⟨members, hmembers, htells⟩ : ∃ members, (if (t.node? (root ++ d ++ [Manifest.fileName])).isSome
      then Manifest.load t (root ++ d) else .ok []) = .ok members ∧ Tells t (root ++ d) members := by
    split
    · exact ⟨_, Manifest.load_eq_ok_iff.mpr ⟨hdeep, rfl⟩, tells_read ht hplain hfits⟩
    · rename_i habsent
      exact ⟨[], rfl, tells_nil (by simpa using habsent)⟩
  refine ⟨⟨(Manifest.label? members "name").getD (.text (d.getLastD "")), Text.joinWith "/" d,
    Path.absolute (root ++ d), packageKind members,
    (t.node? (root ++ d ++ [Manifest.fileName])).isSome⟩, ?_, ?_⟩
  · refine describe_eq_ok.mpr ⟨_, members, hexists, hmembers, ?_⟩
    rw [hlast, hsteps]
  · refine ⟨rfl, rfl, Option.isSome_iff_ne_none, htells.framework_iff, ?_,
      fun other hother name hname => ?_, fun hnone => ?_⟩
    · dsimp only [packageKind]
      split
      · exact .inl rfl
      · exact .inr rfl
    · dsimp only
      rw [htells.hasName_iff.mpr ⟨other, hother, hname⟩, Option.getD_some]
    · dsimp only
      cases hlabel : Manifest.label? members "name" with
      | none => rfl
      | some name =>
        obtain ⟨other, hother, hname⟩ := htells.hasName_iff.mp hlabel
        exact absurd hname (hnone other hother name)

end Checkup.Workspaces
