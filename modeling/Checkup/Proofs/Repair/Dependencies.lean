import Checkup.Proofs.Pattern.Kept
import Checkup.Proofs.Repair.Findings
import Checkup.Proofs.Repair.Manifest
import Checkup.Proofs.Text.Pieces

/-!
# Dependencies that findings name

A repair reads the dependency that it is for off the message of the finding. It can do so if the
names of the workspaces hold no blanks. Then a dependency with a version, as it is reported, has that
version in a section of the manifest.

* `Project.Legible`: the names of the workspaces can be read off messages.
* `dependencyOf_plainDependency`: the dependency is read off the message.
* `plainUnder_of_mem`: a plain version of a dependency is one in a section.
-/

namespace Checkup

open Json (Members)
open Monorepo (WorkspaceProtocol.message WorkspaceProtocol.dependencyIn WorkspaceProtocol.namedIn?
  WorkspaceProtocol.plainVersion?)

/-- A name is one word: it is not empty and holds no blanks. -/
def IsWord (name : Label) : Prop := name ≠ .text "" ∧ ∀ c ∈ name.nearest.toList, Text.isBlank c = false

instance (name : Label) : Decidable (IsWord name) :=
  haveI := List.decidableBAll (fun c => Text.isBlank c = false) name.nearest.toList
  inferInstanceAs (Decidable (_ ∧ _))

/-- The names of the workspaces can be read off messages. -/
def Project.Legible (p : Project) : Prop := ∀ w ∈ p.workspaceList, IsWord w.name

/-! ## Messages -/

/-- What a message says right behind the name of the dependency. -/
def behindName : List Char := " should use \"workspace:*\"".toList

/-- The name of the dependency ends where the message goes on with a blank. -/
theorem eq_of_behindName {word word' rest rest' : List Char} (hword : ∀ c ∈ word, Text.isBlank c = false)
    (hword' : ∀ c ∈ word', Text.isBlank c = false)
    (h : word ++ (behindName ++ rest) = word' ++ (behindName ++ rest')) : word = word' := by
  have hblank : Text.isBlank ' ' = true := by decide
  exact (Text.append_cons_unique hword hblank hword' hblank h).1

/-- A match of the pattern keeps a word at the start of a text, behind which the text goes on. -/
theorem kept_of_dependencyIn {place : Pattern.Cursor} {found : Pattern.Found}
    (h : Pattern.Matches WorkspaceProtocol.dependencyIn place found) : place.before = none ∧
      ∃ word rest, found.kept = [word] ∧ word ≠ [] ∧ (∀ c ∈ word, Text.isBlank c = false) ∧
        place.rest = word ++ (behindName ++ rest) := by
  unfold WorkspaceProtocol.dependencyIn Pattern.sequence Pattern.sequence Pattern.sequence at h
  cases h with
  | seq hstart hrest =>
    cases hstart with
    | start =>
      cases hrest with
      | seq hkeep hphrase =>
        cases hkeep with
        | @keep _ _ a hrun =>
          obtain ⟨kept, before, after⟩ := a
          obtain ⟨word, hne, rfl, hword⟩ := Pattern.matches_run1 hrun
          obtain rfl : kept = [] := Pattern.kept_of_matches hrun rfl
          have hkept := Pattern.kept_of_matches hphrase (Pattern.keepsNothing_literal _)
          refine ⟨rfl, word, _, ?_, hne, ?_,
            congrArg (word ++ ·) (Pattern.matches_literal hphrase)⟩
          · rw [hkept, Pattern.between_append]
            rfl
          · exact fun c hc => by simpa using hword c hc

/-- The name of a dependency is read off the message. -/
theorem firstKept?_dependencyIn {name rest : List Char} (hne : name ≠ [])
    (hname : ∀ c ∈ name, Text.isBlank c = false) :
    WorkspaceProtocol.dependencyIn.firstKept? (name ++ (behindName ++ rest)) = some name := by
  obtain ⟨c, more, rfl⟩ := List.exists_cons_of_ne_nil hne
  have hall : ∀ d ∈ c :: more, (!Text.isBlank d) = true := fun d hd => by rw [hname d hd]; rfl
  obtain ⟨hc, hmore⟩ := List.forall_mem_cons.mp hall
  obtain ⟨last, hrun⟩ := Pattern.exists_matches_run hmore (some c) (behindName ++ rest)
  obtain ⟨after, hphrase⟩ := Pattern.exists_matches_literal behindName last rest
  have hmatch : Pattern.Matches WorkspaceProtocol.dependencyIn
      (.ofText (c :: more ++ (behindName ++ rest))) _ :=
    .seq (.start _) (.seq (.keep (.seq (.one none _ hc) hrun)) hphrase)
  obtain ⟨first, hfirst, hsearch⟩ := Pattern.search?_of_matches hmatch
  obtain ⟨-, word, rest', hkept, -, hword, heq⟩ := kept_of_dependencyIn hfirst
  unfold Pattern.firstKept?
  rw [hsearch, Option.bind_some, hkept, List.head?_cons]
  exact congrArg some (eq_of_behindName hword hname heq.symm)

theorem nearest_message (dependency version : Label) :
    (WorkspaceProtocol.message dependency version).nearest.toList = dependency.nearest.toList ++
      (behindName ++ (" instead of \"".toList ++ (version.nearest.toList ++ ['"']))) := by
  have hphrase : (" should use \"workspace:*\" instead of \"").toList =
      behindName ++ " instead of \"".toList := by decide
  unfold WorkspaceProtocol.message
  rw [Label.nearest_append, Label.nearest_append, Label.nearest_append, Label.nearest_text,
    Label.nearest_text, hphrase]
  simp only [List.append_assoc]
  rfl

theorem ne_empty_iff {name : Label} : name ≠ .text "" ↔ name.nearest.toList ≠ [] := by
  rw [Label.nearest_toList, ne_eq, ne_eq, List.map_eq_nil_iff, not_iff_not]
  exact ⟨fun h => by rw [h]; rfl, fun h => Label.points_inj h⟩

/-- What is kept of a message has as many code points as characters. -/
theorem length_nearest (name : Label) : name.nearest.toList.length = name.points.length := by
  rw [Label.nearest_toList, List.length_map]

theorem message_points (dependency version : Label) :
    (WorkspaceProtocol.message dependency version).points = dependency.points ++
      (Label.text " should use \"workspace:*\" instead of \"" ++ version ++ Label.text "\"").points := by
  simp only [WorkspaceProtocol.message, Label.points_append, List.append_assoc]

/-- A label with a dependency in front, cut off behind as many characters. -/
theorem take_message {dependency version : Label} {word : List Char}
    (h : word = dependency.nearest.toList) :
    (WorkspaceProtocol.message dependency version).take word.length = dependency := by
  refine Label.points_inj ?_
  rw [h, length_nearest, Label.points_take, message_points, List.take_left]

/-- Messages that are the same are about the same dependency. -/
theorem eq_of_message {dependency dependency' version version' : Label}
    (hword : ∀ c ∈ dependency.nearest.toList, Text.isBlank c = false)
    (hword' : ∀ c ∈ dependency'.nearest.toList, Text.isBlank c = false)
    (h : WorkspaceProtocol.message dependency version =
      WorkspaceProtocol.message dependency' version') : dependency = dependency' := by
  have hlists := congrArg (fun message : Label => message.nearest.toList) h
  rw [nearest_message, nearest_message] at hlists
  have hsame := eq_of_behindName hword hword' hlists
  have htake : (WorkspaceProtocol.message dependency version).take dependency.nearest.toList.length =
    dependency := take_message rfl
  rw [h, take_message hsame] at htake
  exact htake.symm

/-- The name of a dependency that is one word is read off the message. -/
theorem namedIn?_message {dependency : Label} (hword : IsWord dependency) (version : Label) :
    WorkspaceProtocol.namedIn? (WorkspaceProtocol.message dependency version) = some dependency := by
  unfold WorkspaceProtocol.namedIn?
  rw [nearest_message, firstKept?_dependencyIn (ne_empty_iff.mp hword.1) hword.2, Option.map_some,
    take_message rfl]

/-- The repair finds the dependency that a finding is about. -/
theorem dependencyOf_plainDependency {c : Context} (hlegible : c.project.Legible) (w : Workspace)
    {dependency version : Label}
    (hname : (Monorepo.WorkspaceProtocol.names c).contains dependency = true) :
    dependencyOf c (plainDependency w dependency version) = some dependency := by
  obtain ⟨w', hw', rfl⟩ := List.mem_map.mp (List.contains_iff_mem.mp hname)
  have hmessage : (plainDependency w w'.name version).message =
      WorkspaceProtocol.message w'.name version := rfl
  unfold dependencyOf
  rw [hmessage, namedIn?_message (hlegible w' hw'), Option.filter_some, if_pos hname]

/-! ## Versions -/

theorem get?_of_mem {members : Members} (h : members.keys.Nodup) {key : Label} {value : Json}
    (hmem : (key, value) ∈ members) : members.get? key = some value := by
  induction members with
  | nil => cases hmem
  | cons member rest ih =>
    obtain ⟨k, v⟩ := member
    obtain ⟨hk, hrest⟩ := List.nodup_cons.mp h
    rw [Members.get?_cons]
    rcases List.mem_cons.mp hmem with heq | hrestmem
    · cases heq
      rw [if_pos rfl]
    · have hne : key ≠ k := by
        rintro rfl
        exact hk (List.mem_map.mpr ⟨_, hrestmem, rfl⟩)
      rw [if_neg hne, ih hrest hrestmem]

theorem nodup_dependencies (manifest : Members) : (Manifest.dependencies manifest).keys.Nodup :=
  Json.nodup_merge _ _ (Json.nodup_merge _ _ List.nodup_nil)

/-- A dependency has one version in a manifest. -/
theorem eq_of_mem_dependencies {manifest : Members} {key : Label} {value value' : Json}
    (h : (key, value) ∈ Manifest.dependencies manifest)
    (h' : (key, value') ∈ Manifest.dependencies manifest) : value = value' := by
  have hnodup := nodup_dependencies manifest
  exact Option.some.inj ((get?_of_mem hnodup h).symm.trans (get?_of_mem hnodup h'))

/-- A plain version of a dependency is one in a section of the manifest. -/
theorem plainUnder_of_mem {manifest : Members} (hread : Json.Fits (.obj manifest))
    {dependency version : Label} {value : Json}
    (hmem : (dependency, value) ∈ Manifest.dependencies manifest)
    (hversion : WorkspaceProtocol.plainVersion? value = some version) :
    ∃ name ∈ Manifest.dependencySections, plainUnder dependency manifest name = true := by
  have hsection : ∀ name, (dependency, value) ∈ (Manifest.section? manifest name).getD [] →
      plainUnder dependency manifest name = true := by
    intro name hmem
    have hnodup : ((Manifest.section? manifest name).getD []).keys.Nodup := by
      cases readable_section hread.readable name with
      | obj _ hn _ => exact hn
    unfold plainUnder
    cases hs : Manifest.section? manifest name with
    | none =>
      rw [hs] at hmem
      cases hmem
    | some members =>
      rw [hs, Option.getD_some] at hmem hnodup
      rw [Option.any_some]
      unfold plainIn
      rw [get?_of_mem hnodup hmem, Option.bind_some, hversion]
      rfl
  rw [dependencies_eq] at hmem
  rcases Json.mem_merge _ _ hmem with hmem | hmem
  · rcases Json.mem_merge _ _ hmem with hmem | hmem
    · cases hmem
    · exact ⟨"dependencies", by decide, hsection _ hmem⟩
  · exact ⟨"devDependencies", by decide, hsection _ hmem⟩

end Checkup
