import Checkup.Proofs.Repair.Dependencies

/-!
# Changing single members

Making a dependency local changes the values of single members in place: the plain versions of the
dependency, in each section that holds dependencies. Such changes leave the order of the members as it
is, and changes of different members can be made in either order.

* `Json.Members.put_eq_update`: giving a member that is there a value.
* `Json.Members.update_comm`, `Json.Members.put_update`: changes in either order.
* `localMembers_referTo`: making a dependency local changes the members that stand for it.
-/

namespace Checkup

open Json (Members)
open Monorepo.WorkspaceProtocol (plainVersion? anyVersion localize)

namespace Json.Members

variable {members : Members} {key name : Label} {change : Json → Json}

/-- The members with the value under a name changed. -/
def update (members : Members) (key : Label) (change : Json → Json) : Members :=
  members.map fun member => (member.1, if member.1 = key then change member.2 else member.2)

theorem update_cons (k : Label) (v : Json) (rest : Members) : update ((k, v) :: rest) key change =
    (k, if k = key then change v else v) :: update rest key change := rfl

theorem get?_update (members : Members) (key name : Label) (change : Json → Json) :
    (members.update key change).get? name =
      if name = key then (members.get? name).map change else members.get? name := by
  induction members with
  | nil => exact (ite_self _).symm
  | cons member rest ih =>
    obtain ⟨k, v⟩ := member
    rw [update_cons, get?_cons, get?_cons, ih]
    by_cases hk : name = k
    · subst hk
      rw [if_pos rfl, if_pos rfl]
      split
      · rfl
      · rfl
    · rw [if_neg hk, if_neg hk]

/-- A member that is not there is not changed. -/
theorem update_of_not_mem (h : key ∉ members.keys) : members.update key change = members := by
  induction members with
  | nil => rfl
  | cons member rest ih =>
    obtain ⟨k, v⟩ := member
    obtain ⟨hk, hrest⟩ := not_or.mp (mt List.mem_cons.mpr h)
    rw [update_cons, if_neg (Ne.symm hk), ih hrest]

/-- A change that makes no difference. -/
theorem update_eq_self (hn : members.keys.Nodup)
    (h : ∀ value, members.get? key = some value → change value = value) :
    members.update key change = members := by
  induction members with
  | nil => rfl
  | cons member rest ih =>
    obtain ⟨k, v⟩ := member
    obtain ⟨hk, hrest⟩ := List.nodup_cons.mp hn
    rw [update_cons]
    by_cases heq : k = key
    · subst heq
      rw [if_pos rfl, h v (by rw [get?_cons, if_pos rfl]), update_of_not_mem hk]
    · rw [if_neg heq, ih hrest fun value hvalue => h value (by
        rw [get?_cons, if_neg (Ne.symm heq), hvalue])]

/-- Giving a member that is there a value changes it in its place. -/
theorem put_eq_update (hn : members.keys.Nodup) {value : Json} (h : members.get? key = some value) :
    members.put key (change value) = members.update key change := by
  induction members with
  | nil => cases h
  | cons member rest ih =>
    obtain ⟨k, v⟩ := member
    obtain ⟨hk, hrest⟩ := List.nodup_cons.mp hn
    rw [get?_cons] at h
    rw [update_cons]
    unfold put Association.put
    by_cases heq : k = key
    · subst heq
      rw [if_pos rfl] at h
      cases h
      rw [if_pos rfl, if_pos rfl, update_of_not_mem hk]
    · rw [if_neg (Ne.symm heq)] at h
      rw [if_neg heq, if_neg heq]
      exact congrArg _ (ih hrest h)

/-- Changes of two members, or of one member in two ways that go together, in either order. -/
theorem update_comm {change' : Json → Json}
    (h : key = name → ∀ value, change (change' value) = change' (change value)) :
    (members.update key change).update name change' =
      (members.update name change').update key change := by
  unfold update
  rw [List.map_map, List.map_map]
  refine List.map_congr_left fun member _ => Prod.ext rfl ?_
  dsimp only [Function.comp_apply]
  by_cases h1 : member.1 = key
  · by_cases h2 : member.1 = name
    · rw [if_pos h1, if_pos h2, if_pos h1, if_pos h2, h (h1.symm.trans h2)]
    · rw [if_pos h1, if_neg h2, if_neg h2, if_pos h1]
  · rw [if_neg h1, if_neg h1]

/-- Giving one member a value and changing another one, in either order. -/
theorem put_update (hne : name ≠ key) (value : Json) :
    (members.put name value).update key change = (members.update key change).put name value := by
  induction members with
  | nil =>
    have hnil : put [] name value = [(name, value)] := rfl
    rw [hnil, update_cons, if_neg hne]
    rfl
  | cons member rest ih =>
    obtain ⟨k, v⟩ := member
    rw [update_cons]
    unfold put Association.put
    by_cases hk : k = name
    · subst hk
      rw [if_pos rfl, if_pos rfl, update_cons, if_neg hne]
    · rw [if_neg hk, if_neg hk, update_cons]
      exact congrArg _ ih

end Json.Members

/-! ## Making a dependency local -/

/-- A plain version becomes a reference to the workspace. -/
def refer (value : Json) : Json := if (plainVersion? value).isSome then .str anyVersion else value

/-- The plain version of a dependency in a section becomes a reference to the workspace. -/
def referIn (dependency : Label) : Json → Json
  | .obj members => .obj (Members.update members dependency refer)
  | value => value

/-- The plain versions of a dependency in all sections become references to the workspace. -/
def referTo (dependency : Label) (manifest : Members) : Members :=
  Manifest.dependencySections.foldl (fun manifest name => manifest.update name (referIn dependency))
    manifest

variable {dependency : Label} {manifest : Members}

theorem nodup_of_readable {members : Members} (h : Json.Readable (.obj members)) :
    members.keys.Nodup := by
  cases h with
  | obj _ hn _ => exact hn

theorem refer_eq_self {value : Json} (h : plainVersion? value = none) : refer value = value := by
  unfold refer
  rw [h]
  rfl

theorem refer_of_plain {value : Json} (h : (plainVersion? value).isSome) :
    refer value = .str anyVersion := if_pos h

theorem get?_of_plainIn {members : Members} (h : plainIn dependency members = true) :
    ∃ value, members.get? dependency = some value ∧ (plainVersion? value).isSome := by
  unfold plainIn at h
  cases hv : members.get? dependency with
  | none =>
    rw [hv] at h
    cases h
  | some value =>
    rw [hv] at h
    exact ⟨value, rfl, h⟩

theorem update_refer {members : Members} (hn : members.keys.Nodup) : members.update dependency refer =
    if plainIn dependency members then members.put dependency (.str anyVersion) else members := by
  split
  · rename_i hplain
    obtain ⟨value, hvalue, hversion⟩ := get?_of_plainIn hplain
    rw [← refer_of_plain hversion, Members.put_eq_update hn hvalue]
  · rename_i hplain
    refine Members.update_eq_self hn fun value hvalue => refer_eq_self ?_
    unfold plainIn at hplain
    rw [hvalue] at hplain
    exact Option.not_isSome_iff_eq_none.mp hplain

/-- One section. -/
theorem localizeStep_fst (h : Json.Readable (.obj manifest)) (changed : Bool) (name : String) :
    (localizeStep dependency (manifest, changed) name).1 = manifest.update name (referIn dependency) := by
  have hn := nodup_of_readable h
  unfold localizeStep
  dsimp only
  rw [localizeIn_eq]
  unfold plainUnder
  cases hsection : Manifest.section? manifest name with
  | none =>
    refine (Members.update_eq_self hn fun value hvalue => ?_).symm
    unfold Manifest.section? at hsection
    rw [hvalue] at hsection
    cases value with
    | obj members => cases hsection
    | _ => rfl
  | some members =>
    have hvalue : manifest.get? name = some (.obj members) := by
      unfold Manifest.section? at hsection
      obtain ⟨value, hvalue, hmembers⟩ := Option.bind_eq_some_iff.mp hsection
      cases value with
      | obj found =>
        cases hmembers
        exact hvalue
      | _ => cases hmembers
    have hrefer : referIn dependency (.obj members) = .obj (Members.update members dependency refer) := rfl
    have hinner : Members.update members dependency refer =
        if plainIn dependency members then members.put dependency (.str anyVersion) else members :=
      update_refer (nodup_of_readable (h.get? hvalue).2)
    rw [Option.any_some, Option.getD_some]
    cases hplain : plainIn dependency members with
    | true =>
      rw [hplain, if_pos rfl] at hinner
      rw [if_pos rfl, ← Members.put_eq_update hn hvalue, hrefer, hinner]
    | false =>
      rw [hplain, if_neg Bool.false_ne_true] at hinner
      rw [if_neg Bool.false_ne_true]
      refine (Members.update_eq_self hn fun value hvalue' => ?_).symm
      rw [hvalue] at hvalue'
      cases hvalue'
      rw [hrefer, hinner]

theorem localize_fst (h : Json.Fits (.obj manifest)) :
    (localize dependency manifest).1 = referTo dependency manifest := by
  rw [localize_eq]
  unfold referTo
  suffices ∀ (names : List String) (state : Members × Bool),
      (∀ name ∈ names, name ∈ Manifest.dependencySections) → Json.Fits (.obj state.1) →
      (names.foldl (localizeStep dependency) state).1 =
        names.foldl (fun manifest name => manifest.update name (referIn dependency)) state.1 from
    this _ (manifest, false) (fun _ hn => hn) h
  intro names
  induction names with
  | nil => exact fun _ _ _ => rfl
  | cons name rest ih =>
    intro state hnames hread
    obtain ⟨hname, hrest⟩ := List.forall_mem_cons.mp hnames
    rw [List.foldl_cons, List.foldl_cons, ← localizeStep_fst hread.readable state.2]
    exact ih _ hrest (kept_localizeStep dependency hread hname).1.fits

/-- Making a dependency local changes the members that stand for it, if one of them does. -/
theorem localMembers_referTo (h : Json.Fits (.obj manifest)) {localized : Members}
    (hl : Amendment.localMembers dependency manifest = some localized) :
    localized = referTo dependency manifest := by
  rw [localMembers_eq] at hl
  split at hl
  · cases hl
    exact localize_fst h
  · cases hl

end Checkup
