import Checkup.Proofs.Json.Grammar
import Checkup.Proofs.Repair.Frame
import Checkup.Proofs.Scan.Walk

/-!
# Repaired manifests as strict JSON

A repair of a manifest or of compiler settings writes the whole value that was read. Every numeral of
strict JSON is read, but one that is out of range is read as an infinite number, for which there is no
numeral. So what is written is strict JSON exactly if the numbers of the edited value are finite, and
no edit brings in others.

* `Json.Finite.put`, `Json.Finite.update`: edits keep numbers finite.
* `strict_of_rewrite`: what an amendment of members writes.
* `strict_of_repair`: what the repairs of the built-in rules write.
-/

namespace Checkup

open Json (Members StrictText Finite)
open Application (ClientDirective.rule ClientDirective.check)
open Hygiene (EngineVersion.info EngineVersion.rule EngineVersion.check)

/-! ## Finite numbers in edited objects -/

namespace Json

variable {members : Members}

theorem Finite.of_mem (h : Finite (.obj members)) : ∀ m ∈ members, Finite m.2 := by
  cases h with
  | obj h => exact h

theorem Finite.put (h : Finite (.obj members)) (key : Label) {value : Json} (hv : Finite value) :
    Finite (.obj (members.put key value)) := by
  refine .obj fun m hm => ?_
  rcases mem_put hm with hm | rfl
  · exact h.of_mem m hm
  · exact hv

theorem Finite.update (h : Finite (.obj members)) (key : Label) {change : Json → Json}
    (hchange : ∀ value, Finite value → Finite (change value)) :
    Finite (.obj (members.update key change)) := by
  refine .obj fun m hm => ?_
  obtain ⟨old, hold, rfl⟩ := List.mem_map.mp hm
  dsimp only
  split
  · exact hchange _ (h.of_mem old hold)
  · exact h.of_mem old hold

theorem Finite.get? (h : Finite (.obj members)) {key : Label} {value : Json}
    (hv : members.get? key = some value) : Finite value := by
  induction members with
  | nil => cases hv
  | cons m rest ih =>
    obtain ⟨k, w⟩ := m
    obtain ⟨hw, hrest⟩ := List.forall_mem_cons.mp h.of_mem
    rw [Members.get?_cons] at hv
    split at hv
    · cases hv
      exact hw
    · exact ih (.obj hrest) hv

/-- A member of one of the objects in an object is given a value. -/
theorem Finite.put_put (h : Finite (.obj members)) (name key : Label) {value : Json}
    (hv : Finite value) : Finite (.obj (members.put name
      (.obj ((((members.get? name).bind Json.members?).getD []).put key value)))) := by
  refine h.put name (.put ?_ key hv)
  cases hinner : members.get? name with
  | none => exact .obj (List.forall_mem_nil _)
  | some inner =>
    cases inner with
    | obj found => exact h.get? hinner
    | _ => exact .obj (List.forall_mem_nil _)

end Json

theorem finite_strictMembers {settings edited : Members}
    (he : Amendment.strictMembers settings = some edited) (h : Finite (.obj settings)) :
    Finite (.obj edited) := by
  unfold Amendment.strictMembers at he
  split at he
  · cases he
  · cases he
    exact h.put_put _ _ (.bool true)

theorem finite_engineMembers {manifest edited : Members}
    (he : Amendment.engineMembers manifest = some edited) (h : Finite (.obj manifest)) :
    Finite (.obj edited) := by
  unfold Amendment.engineMembers at he
  split at he
  · cases he
  · cases he
    exact h.put_put _ _ (.str _)

theorem finite_refer {value : Json} (h : Finite value) : Finite (refer value) := by
  unfold refer
  split
  · exact .str _
  · exact h

theorem finite_referIn (dependency : Label) (value : Json) (h : Finite value) :
    Finite (referIn dependency value) := by
  cases value with
  | obj members => exact h.update dependency fun _ => finite_refer
  | _ => exact h

theorem finite_referTo (dependency : Label) {manifest : Members} (h : Finite (.obj manifest)) :
    Finite (.obj (referTo dependency manifest)) := by
  unfold referTo
  generalize Manifest.dependencySections = names
  induction names generalizing manifest with
  | nil => exact h
  | cons name rest ih => exact ih (h.update name (finite_referIn dependency))

/-! ## What repairs write -/

variable {c : Context} {t t' : Tree} {f : Finding} {r : Rule} {file : String} {a : Amendment}

/-- A location was rewritten by a value: the file there held an object, and now holds an edited one.
It is strict JSON exactly if the numbers in it are finite, and they are if those before were. -/
def WritesStrictly (c : Context) (t t' : Tree) (file : String) : Prop :=
  ∃ l old text members edited, c.access t file = .ok (l, .file old) ∧
    Tree.decodeText old = .ok text ∧ Json.parse? text = some (.obj members) ∧
    t' = t.put l (.file (Amendment.textOf edited).toUTF8) ∧
    (StrictText (Amendment.textOf edited).toList ↔ Finite (.obj edited)) ∧
    (Finite (.obj members) → Finite (.obj edited))

/-- An amendment that edits the members of an object. -/
theorem strict_of_rewrite {edit : Members → Option Members}
    (ha : ∀ text, a.apply text = ((Amendment.membersOf text).bind edit).map Amendment.textOf)
    (hread : ∀ {members edited}, Json.Fits (.obj members) → edit members = some edited →
      Json.Fits (.obj edited))
    (hfinite : ∀ {members edited}, Json.Fits (.obj members) → edit members = some edited →
      Finite (.obj members) → Finite (.obj edited))
    (h : c.rewrite t file a = (.ok true, t')) : WritesStrictly c t t' file := by
  obtain ⟨s, hs, -⟩ := Context.readText?_of_rewrite h
  have hedited := hs
  rw [ha, Option.map_eq_some_iff] at hedited
  obtain ⟨edited, hbind, rfl⟩ := hedited
  obtain ⟨members, hmembers, hedit⟩ := Option.bind_eq_some_iff.mp hbind
  have hfits := Amendment.fits_membersOf hmembers
  obtain ⟨value, hvalue, hobject⟩ := Option.bind_eq_some_iff.mp hmembers
  obtain ⟨text, htext, hparse⟩ := Option.bind_eq_some_iff.mp hvalue
  obtain rfl : value = .obj members := by
    cases value with
    | obj found =>
      cases hobject
      rfl
    | _ => cases hobject
  rw [htext] at hs
  obtain ⟨l, old, haccess, hdecode, hrewrite⟩ := Context.rewrite_of_readText? htext hs
  obtain ⟨-, rfl⟩ := Prod.ext_iff.mp (h.symm.trans hrewrite)
  exact ⟨l, old, text, members, edited, haccess, hdecode, hparse, rfl,
    Json.strictText_pretty_iff (hread hfits hedit).readable, hfinite hfits hedit⟩

/-- The path of a manifest or of compiler settings. -/
def IsConfiguration (file : String) : Prop :=
  "package.json".toList <:+ file.toList ∨ "tsconfig.json".toList <:+ file.toList

theorem not_isMarkup_of_isConfiguration (h : IsConfiguration file) : ¬ IsMarkup file := by
  rintro ⟨ending, hending, hsuffix⟩
  have hends : ∀ name ∈ ["package.json", "tsconfig.json"], ∀ ending ∈ markupEndings,
      ¬ ending.toList <:+ name.toList ∧ ending.toList.length ≤ name.toList.length := by decide
  have hname : ∃ name ∈ ["package.json", "tsconfig.json"], name.toList <:+ file.toList := by
    simpa [IsConfiguration] using h
  obtain ⟨name, hname, hfile⟩ := hname
  obtain ⟨hnot, hlength⟩ := hends name hname ending hending
  exact hnot (List.suffix_of_suffix_length_le hsuffix hfile hlength)

/-- A repair that was made rewrote the file of its rule. A manifest or compiler settings are strict JSON
afterwards exactly if the numbers in them are finite. They are if all numerals of the text before were
read as finite numbers. -/
theorem strict_of_repair (hr : r ∈ Registry.builtIn)
    (hf : r = ClientDirective.rule → f ∈ ClientDirective.check c t)
    (h : r.repair c t f = (.ok true, t')) :
    ∃ file a, Repairs c f r file a ∧ (IsConfiguration file → WritesStrictly c t t' file) := by
  have hfix : r.canFix = true := by
    cases hfix : r.fix? with
    | none =>
      unfold Rule.repair at h
      rw [hfix] at h
      cases h
    | some fix => exact Option.isSome_iff_exists.mpr ⟨fix, hfix⟩
  rcases repairs_or_idle (c := c) (mem_fixing hr hfix) f with ⟨file, a, hrepairs⟩ | hidle
  · refine ⟨file, a, hrepairs, fun hfile => ?_⟩
    rw [hrepairs.repair_eq] at h
    cases hrepairs with
    | strict =>
      exact strict_of_rewrite (fun _ => rfl) Amendment.fits_strictMembers
        (fun _ => finite_strictMembers) h
    | engine =>
      exact strict_of_rewrite (fun _ => rfl) (fun h he => (kept_engineMembers h he).1.fits)
        (fun _ => finite_engineMembers) h
    | @protocol dependency hdependency =>
      refine strict_of_rewrite (fun _ => rfl) (fun h he => (kept_localMembers h he).1.fits)
        (fun {members edited} hread he hm => ?_) h
      rw [localMembers_referTo hread he]
      exact finite_referTo dependency hm
    | ignore => exact absurd hfile (by unfold IsConfiguration; decide)
    | directive =>
      obtain ⟨path, hpath, -, text, -, -, name, -, rfl⟩ := mem_directive_iff.mp (hf rfl)
      have hmarkup := Pattern.isMarkup_of_accepts (Context.mem_walk_iff_comesTo.mp hpath).accepted.1
      exact absurd hmarkup (not_isMarkup_of_isConfiguration hfile)
  · rw [hidle t] at h
    cases h

/-- The file of the engine's version. -/
theorem Repairs.file_of_engine (h : Repairs c f r file a) (hid : r.info.id = EngineVersion.info.id) :
    file = "package.json" := by
  cases h with
  | engine => rfl
  | strict => exact absurd hid (by decide)
  | ignore => exact absurd hid (by decide)
  | protocol _ => exact absurd hid (by decide)
  | directive => exact absurd hid (by decide)

theorem strict_of_repair_mixedTree : EngineVersion.rule ∈ Registry.builtIn ∧
    ∃ t', EngineVersion.rule.repair mixedContext mixedTree mixedFinding = (.ok true, t') ∧
      WritesStrictly mixedContext mixedTree t' "package.json" := by
  have hrule : EngineVersion.rule ∈ Registry.builtIn := builtIn_of_fixing (by simp [Registry.fixing])
  have hdone : (EngineVersion.rule.repair mixedContext mixedTree mixedFinding).1 = .ok true := by
    decide +kernel
  have hrepair := Prod.fst_eq_iff.mp hdone
  have hother : EngineVersion.rule ≠ ClientDirective.rule := by
    intro heq
    exact absurd (congrArg (fun r => r.info.id) heq) (by decide)
  obtain ⟨file, a, hrepairs, hstrict⟩ :=
    strict_of_repair hrule (fun heq => absurd heq hother) hrepair
  obtain rfl := hrepairs.file_of_engine rfl
  exact ⟨hrule, _, hrepair, hstrict (.inl (List.suffix_refl _))⟩

/-! ## A numeral out of range -/

/-- A package whose manifest has a numeral that is out of range. -/
def overflowTree : Tree :=
  ⟨[(["r"], .folder), (["r", "package.json"], .file "\x7b\"x\":1e400\x7d".toUTF8)]⟩

/-- The members of the manifest after the version of the engine was stated. -/
def overflowMembers : Members :=
  [("x", .float (.infinite false)), ("engines", .obj [("node", .str ">=18")])]

/-- What is wrong with the manifest. -/
def unstated : Finding :=
  (EngineVersion.info.finding "package.json" "Missing engines.node field").asFixable

theorem strictText_overflowTree : StrictText "\x7b\"x\":1e400\x7d".toList := by
  have hname : Json.StrictString ['"', 'x', '"'] :=
    ⟨['x'], .plain (by decide) (by decide) (by decide) .nil, rfl⟩
  have hwhole : Json.IsWhole ['1'] := Json.isWhole_decimalDigits 1
  have hdigits : Json.Digits ['4', '0', '0'] := Json.digits_decimalDigits 400
  have hexponent : Json.StrictExponent ('e' :: ([] ++ ['4', '0', '0'])) :=
    .some (by simp) (by simp) hdigits (by simp)
  have hnumeral : Json.StrictNumeral ([] ++ (['1'] ++ ([] ++ 'e' :: ([] ++ ['4', '0', '0'])))) :=
    .parts (by simp) hwhole .none hexponent
  have hmember := Json.Strict.member hname Json.blanks_nil Json.blanks_nil (.numeral hnumeral)
  have hlist := Json.Strict.last Json.blanks_nil hmember Json.blanks_nil
  exact ⟨[], _, [], Json.blanks_nil, .object hlist, Json.blanks_nil, rfl⟩

theorem readable_overflowMembers : Json.Readable (.obj overflowMembers) := by
  have hnumber : Json.Readable (.obj [("x", .float (.infinite false))]) :=
    .obj (List.forall_mem_singleton.mpr (Json.isSound_text "x")) (by decide)
      (List.forall_mem_singleton.mpr (.float trivial))
  have hengines : Json.Readable (.obj [("node", .str ">=18")]) :=
    .obj (List.forall_mem_singleton.mpr (Json.isSound_text "node")) (by decide)
      (List.forall_mem_singleton.mpr (.str _))
  exact hnumber.put (Json.isSound_text "engines") hengines

/-- The numeral is strict JSON, but the repair of the manifest writes a word that is not. -/
theorem unstrict_overflowTree : StrictText "\x7b\"x\":1e400\x7d".toList ∧
    EngineVersion.check mixedContext overflowTree = .ok [unstated] ∧
    EngineVersion.rule.repair mixedContext overflowTree unstated = (.ok true,
      overflowTree.put ["r", "package.json"] (.file (Amendment.textOf overflowMembers).toUTF8)) ∧
    ¬ StrictText (Amendment.textOf overflowMembers).toList := by
  refine ⟨strictText_overflowTree, by decide +kernel, by decide +kernel, fun hstrict => ?_⟩
  have hfinite := (Json.strictText_pretty_iff readable_overflowMembers).mp hstrict
  cases hfinite.of_mem _ (List.mem_cons_self ..) with
  | float hx => cases hx

end Checkup
