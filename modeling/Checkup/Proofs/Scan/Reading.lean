import Checkup.Project.Manifest
import Checkup.Proofs.Json.Depth
import Checkup.Proofs.Outcome
import Checkup.Rule.Basic

/-!
# Reading JSON from files

Reading a JSON file comes to a fault if the file is nested too deep, and to nothing else than the
value in it if it is not. What is read is told apart here from whether it is.

* `Context.readJson_eq`, `Context.readMembers_eq`: reading in a scan root.
* `Manifest.load_eq`: reading a manifest in a directory.
* `Rule.findingsIn_eq`, `Repair.byMembers_eq`: checks and repairs that go by a JSON file.
-/

namespace Checkup

namespace Context

/-- The file at a path is nested too deep. -/
def IsTooDeep (c : Context) (t : Tree) (path : String) : Prop := Json.TooDeepIn (c.readText? t path)

instance (c : Context) (t : Tree) (path : String) : Decidable (c.IsTooDeep t path) :=
  inferInstanceAs (Decidable (Json.TooDeepIn _))

/-- The JSON value in a file in the root; none if there is no well-formed one, and none if it is
nested too deep. -/
def readJson? (c : Context) (t : Tree) (path : String) : Option Json :=
  (c.readText? t path).bind Json.parse?

/-- The members of the JSON object in a file in the root. -/
def readMembers? (c : Context) (t : Tree) (path : String) : Option Json.Members :=
  (c.readJson? t path).bind Json.members?

variable {c : Context} {t : Tree} {path : String}

theorem readJson_eq : c.readJson t path =
    if c.IsTooDeep t path then .error .tooDeep else .ok (c.readJson? t path) := by
  have hload : c.readJson t path = Json.loadIn (c.readText? t path) := by
    unfold readJson
    cases c.readText? t path <;> rfl
  exact hload.trans (Json.loadIn_eq _)

theorem readMembers_eq : c.readMembers t path =
    if c.IsTooDeep t path then .error .tooDeep else .ok (c.readMembers? t path) := by
  rw [readMembers, readJson_eq]
  split <;> rfl

theorem not_isTooDeep_of_readJson? {value : Json} (h : c.readJson? t path = some value) :
    ¬ c.IsTooDeep t path := Json.not_tooDeepIn h

theorem not_isTooDeep_of_readMembers? {members : Json.Members}
    (h : c.readMembers? t path = some members) : ¬ c.IsTooDeep t path := by
  obtain ⟨value, hvalue, -⟩ := Option.bind_eq_some_iff.mp h
  exact not_isTooDeep_of_readJson? hvalue

/-- A value that is read is the one in the file. -/
theorem readJson_eq_ok_some_iff {value : Json} :
    c.readJson t path = .ok (some value) ↔ c.readJson? t path = some value := by
  rw [readJson_eq]
  constructor
  · intro h
    split at h
    · cases h
    · exact Except.ok.inj h
  · intro h
    rw [if_neg (not_isTooDeep_of_readJson? h), h]

theorem readJson_eq_error_iff {fault : Fault} :
    c.readJson t path = .error fault ↔ fault = .tooDeep ∧ c.IsTooDeep t path := by
  rw [readJson_eq]
  split
  · rename_i hdeep
    exact ⟨fun h => ⟨(Except.error.inj h).symm, hdeep⟩, fun h => by rw [h.1]⟩
  · rename_i hdeep
    exact iff_of_false (fun h => by cases h) fun h => hdeep h.2

end Context

namespace Manifest

/-- The manifest in a directory is nested too deep. -/
def IsTooDeep (t : Tree) (directory : List String) : Prop :=
  Json.TooDeepIn (t.readText (directory ++ [fileName])).toOption

instance (t : Tree) (directory : List String) : Decidable (IsTooDeep t directory) :=
  inferInstanceAs (Decidable (Json.TooDeepIn _))

/-- The members of the manifest in a directory; none if there is no readable object. -/
def read (t : Tree) (directory : List String) : Json.Members :=
  match t.readText (directory ++ [fileName]) with
  | .error _ => []
  | .ok text => ((Json.parse? text).bind Json.members?).getD []

variable {t : Tree} {directory : List String}

theorem load_eq : load t directory =
    if IsTooDeep t directory then .error .tooDeep else .ok (read t directory) := by
  have hload : load t directory = (Json.loadIn (t.readText (directory ++ [fileName])).toOption).map
      fun value => (value.bind Json.members?).getD [] := by
    unfold load
    cases t.readText (directory ++ [fileName]) <;> rfl
  have hread : read t directory = (((t.readText (directory ++ [fileName])).toOption.bind
      Json.parse?).bind Json.members?).getD [] := by
    unfold read
    cases t.readText (directory ++ [fileName]) <;> rfl
  rw [hload, hread]
  by_cases hdeep : IsTooDeep t directory
  · rw [if_pos hdeep, (Json.loadIn_eq _).trans (if_pos hdeep)]
    rfl
  · rw [if_neg hdeep, (Json.loadIn_eq _).trans (if_neg hdeep)]
    rfl

theorem load_eq_ok_iff {manifest : Json.Members} :
    load t directory = .ok manifest ↔ ¬ IsTooDeep t directory ∧ read t directory = manifest := by
  rw [load_eq]
  split
  · rename_i hdeep
    exact iff_of_false (fun h => by cases h) fun h => h.1 hdeep
  · rename_i hdeep
    exact ⟨fun h => ⟨hdeep, Except.ok.inj h⟩, fun h => by rw [h.2]⟩

end Manifest

/-! ## Checks and repairs -/

variable {c : Context} {t : Tree} {path : String}

namespace Rule

theorem members_eq : members c t path =
    if c.IsTooDeep t path then .error (.file .tooDeep) else .ok (c.readMembers? t path) := by
  rw [members, Context.readMembers_eq]
  split <;> rfl

theorem findingsIn_eq {found : Json.Members → List Finding} : findingsIn c t path found =
    if c.IsTooDeep t path then .error (.file .tooDeep)
    else .ok (((c.readMembers? t path).map found).getD []) := by
  rw [findingsIn, members_eq]
  split <;> rfl

theorem findingsIn_returns {found : Json.Members → List Finding} :
    (findingsIn c t path found).Returns ↔ ¬ c.IsTooDeep t path := by
  rw [findingsIn_eq]
  split
  · exact iff_of_false (fun ⟨_, h⟩ => by cases h) (not_not_intro ‹_›)
  · exact iff_of_true ⟨_, rfl⟩ ‹_›

/-- What is found in a file is found in the members of its object. -/
theorem mem_findingsIn_iff {found : Json.Members → List Finding} {f : Finding} :
    f ∈ findingsIn c t path found ↔
      ∃ members, c.readMembers? t path = some members ∧ f ∈ found members := by
  rw [findingsIn_eq]
  by_cases hdeep : c.IsTooDeep t path
  · rw [if_pos hdeep]
    exact iff_of_false Except.not_mem_error
      fun ⟨_, hread, _⟩ => Context.not_isTooDeep_of_readMembers? hread hdeep
  · rw [if_neg hdeep, Except.mem_ok_iff]
    cases c.readMembers? t path with
    | none => exact iff_of_false List.not_mem_nil fun ⟨_, h, _⟩ => by cases h
    | some members =>
      exact ⟨fun h => ⟨members, rfl, h⟩, fun ⟨_, heq, h⟩ => Option.some.inj heq ▸ h⟩

end Rule

namespace Repair

/-- A repair that goes by a file fails on one that is too deep, changes nothing without an object,
and goes by the object's members otherwise. -/
theorem byMembers_eq {repair : Json.Members → Repair} : byMembers c t path repair =
    if c.IsTooDeep t path then (.error (.file .tooDeep), t)
    else
      match c.readMembers? t path with
      | none => unchanged t
      | some members => repair members := by
  rw [byMembers, Rule.members_eq]
  by_cases hdeep : c.IsTooDeep t path
  · rw [if_pos hdeep, if_pos hdeep]
  · rw [if_neg hdeep, if_neg hdeep]
    cases c.readMembers? t path <;> rfl

end Repair

end Checkup
