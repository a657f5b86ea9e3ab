import Checkup.Proofs.Run.WriteSet
import Checkup.Proofs.Tree.Links

/-!
# Settings that stop a run

A settings file that cannot be read, is not well formed or holds no mapping is ignored. Three sorts
of files are not: those that are no text, those with a value that does not exist, and those with an
integer in a list that is too long to be written. Loading them fails, and the run with it.

* `Settings.StopsRun`: the contents of such a file.
* `Settings.load_tolerable`: when loading the settings lets a run go on.
* `Run.run_returns`: when a run comes to a result.
-/

namespace Checkup

namespace Settings

variable {t : Tree} {current : List String} {path : String}

/-- A run goes on with what loading settings comes to. -/
def Tolerable (loaded : Except SettingsFault Settings) : Prop :=
  ∀ fault, loaded = .error fault → fault.isTolerated = true

theorem tolerable_ok (settings : Settings) : Tolerable (.ok settings) := fun _ h => by cases h

theorem tolerable_error {fault : SettingsFault} :
    Tolerable (.error fault) ↔ fault.isTolerated = true :=
  ⟨fun h => h fault rfl, fun h _ heq => by cases heq; exact h⟩

/-! ## Lists of texts -/

/-- The value is an integer with more digits than are written. -/
def IsLongInteger (value : Yaml.Value) : Prop :=
  ∃ n, value = .int n ∧ Number.maxDecimalDigits < (Number.intText n.natAbs).length

theorem itemText?_returns {value : Yaml.Value} :
    (itemText? value).Returns ↔ ¬ IsLongInteger value := by
  have hother : ∀ {found}, itemText? value = .ok found → (∀ n, value ≠ .int n) →
      ((itemText? value).Returns ↔ ¬ IsLongInteger value) := fun hok hne =>
    iff_of_true ⟨_, hok⟩ fun ⟨n, h, _⟩ => hne n h
  cases value with
  | int n =>
    unfold itemText?
    dsimp only
    split
    · rename_i hlong
      exact iff_of_false (fun ⟨_, h⟩ => by cases h) fun h => h ⟨n, rfl, hlong⟩
    · rename_i hshort
      refine iff_of_true ⟨_, rfl⟩ fun h => ?_
      obtain ⟨m, heq, hlong⟩ := h
      cases heq
      exact hshort hlong
  | _ => exact hother rfl fun n h => by cases h

/-- A list with an integer that is too long. -/
def HasLongInteger (d : Yaml.Document) (value : Option Yaml.Value) : Prop :=
  ∃ items, value.bind d.items? = some items ∧ ∃ item ∈ items, IsLongInteger item

theorem texts_returns {d : Yaml.Document} {value : Option Yaml.Value} :
    (texts d value).Returns ↔ ¬ HasLongInteger d value := by
  have hmap : ∀ x : Except Yaml.Error (List (Option String)),
      (x.map fun found => found.filterMap id).Returns ↔ x.Returns := by
    intro x
    cases x with
    | ok found => exact iff_of_true ⟨_, rfl⟩ ⟨_, rfl⟩
    | error fault => exact iff_of_false (fun ⟨_, h⟩ => by cases h) fun ⟨_, h⟩ => by cases h
  unfold texts
  split
  · exact iff_of_true ⟨_, rfl⟩ fun ⟨_, h, _⟩ => by cases h
  · exact iff_of_true ⟨_, rfl⟩ fun ⟨_, h, _⟩ => by cases h
  · rename_i found _ _
    rw [hmap, Except.returns_mapM]
    unfold HasLongInteger
    rw [Option.bind_some]
    constructor
    · rintro h ⟨items, hitems, item, hmem, hlong⟩
      rw [hitems] at h
      exact itemText?_returns.mp (h item hmem) hlong
    · intro h item hmem
      refine itemText?_returns.mpr fun hlong => ?_
      cases hitems : d.items? found with
      | none =>
        rw [hitems] at hmem
        cases hmem
      | some items =>
        rw [hitems] at hmem
        exact h ⟨items, hitems, item, hmem, hlong⟩
  · exact iff_of_true ⟨[], rfl⟩ fun ⟨_, h, _⟩ => by cases h

/-- The lists of texts in a settings file. -/
def lists (d : Yaml.Document) : List (Option Yaml.Value) :=
  let rules := d.member? d.root "rules"
  [rules.bind (d.member? · "disabled"), rules.bind (d.member? · "categories"),
    d.member? d.root "exclude_paths"]

theorem ofMapping_returns (root : Location) (d : Yaml.Document) :
    (ofMapping root d).Returns ↔ ∀ value ∈ lists d, ¬ HasLongInteger d value := by
  unfold lists
  dsimp only
  rw [List.forall_mem_cons, List.forall_mem_cons, List.forall_mem_singleton, ← texts_returns,
    ← texts_returns, ← texts_returns]
  unfold ofMapping
  dsimp only
  rw [Except.returns_bind]
  constructor
  · rintro ⟨disabled, hdisabled, h⟩
    obtain ⟨categories, hcategories, h⟩ := Except.returns_bind.mp h
    obtain ⟨excluded, hexcluded, -⟩ := Except.returns_bind.mp h
    exact ⟨⟨disabled, hdisabled⟩, ⟨categories, hcategories⟩, ⟨excluded, hexcluded⟩⟩
  · rintro ⟨⟨disabled, hdisabled⟩, ⟨categories, hcategories⟩, ⟨excluded, hexcluded⟩⟩
    exact ⟨disabled, hdisabled, Except.returns_bind.mpr ⟨categories, hcategories,
      Except.returns_bind.mpr ⟨excluded, hexcluded, _, rfl⟩⟩⟩

/-! ## Texts of settings -/

/-- A document without members has no lists. -/
theorem lists_of_no_member {d : Yaml.Document} (h : ∀ name, d.member? d.root name = none) :
    ∀ value ∈ lists d, ¬ HasLongInteger d value := by
  intro value hvalue
  unfold lists at hvalue
  rw [h, h] at hvalue
  obtain rfl : value = none := by simpa using hvalue
  rintro ⟨_, hitems, -⟩
  cases hitems

theorem member?_of_not_given {d : Yaml.Document} (h : isGiven d.root = false) (name : String) :
    d.member? d.root name = none := by
  unfold Yaml.Document.member?
  split
  · rename_i pairs hpairs
    rw [hpairs] at h
    have hempty : pairs = [] := by
      unfold isGiven at h
      rwa [Bool.not_eq_false', List.isEmpty_iff] at h
    rw [hempty]
    rfl
  · rfl

theorem ofDocument_tolerable {root : Location} {d : Yaml.Document} :
    Tolerable (ofDocument root d) ↔ ∀ value ∈ lists d, ¬ HasLongInteger d value := by
  unfold ofDocument
  cases hgiven : isGiven d.root with
  | false => exact iff_of_true (tolerable_ok _) (lists_of_no_member (member?_of_not_given hgiven))
  | true =>
    rw [Bool.not_true, if_neg Bool.false_ne_true]
    split
    · rw [← ofMapping_returns root d]
      cases ofMapping root d with
      | ok settings => exact iff_of_true (tolerable_ok _) ⟨settings, rfl⟩
      | error fault =>
        refine iff_of_false (fun h => ?_) fun ⟨_, h⟩ => by cases h
        exact Bool.false_ne_true (tolerable_error.mp h)
    · rename_i hother
      refine iff_of_true (tolerable_error.mpr rfl) (lists_of_no_member fun name => ?_)
      unfold Yaml.Document.member?
      split
      · rename_i pairs hpairs
        exact absurd hpairs (hother pairs)
      · rfl

/-- The contents of a settings file that stops a run. -/
inductive StopsRun (bytes : ByteArray) : Prop
  | notText (h : Tree.decodeText bytes = .error .notText)
  | noSuchValue {text : String} (htext : Tree.decodeText bytes = .ok text)
    (hblank : isBlankText text = false) {fault : Yaml.Error}
    (h : Yaml.Document.ofText text.toList = .error fault) (hfault : fault ≠ .malformed)
  | longInteger {text : String} (htext : Tree.decodeText bytes = .ok text)
    (hblank : isBlankText text = false) {d : Yaml.Document}
    (h : Yaml.Document.ofText text.toList = .ok d) {value : Option Yaml.Value} (hvalue : value ∈ lists d)
    (hlong : HasLongInteger d value)

theorem decodeText_error {bytes : ByteArray} {fault : Fault}
    (h : Tree.decodeText bytes = .error fault) : fault = .notText := by
  unfold Tree.decodeText at h
  split at h
  · cases h
  · cases h
    rfl

/-- When a text stops a run. -/
theorem stopsRun_iff {bytes : ByteArray} {text : String} (htext : Tree.decodeText bytes = .ok text) :
    StopsRun bytes ↔ isBlankText text = false ∧
      ((∃ fault, Yaml.Document.ofText text.toList = .error fault ∧ fault ≠ .malformed) ∨
        ∃ d, Yaml.Document.ofText text.toList = .ok d ∧
          ∃ value ∈ lists d, HasLongInteger d value) := by
  have hsame : ∀ {other}, Tree.decodeText bytes = .ok other → other = text := by
    intro other h
    rw [htext] at h
    exact (Except.ok.inj h).symm
  constructor
  · intro h
    cases h with
    | notText h =>
      rw [htext] at h
      cases h
    | noSuchValue h hblank hdocument hfault =>
      obtain rfl := hsame h
      exact ⟨hblank, .inl ⟨_, hdocument, hfault⟩⟩
    | longInteger h hblank hdocument hvalue hlong =>
      obtain rfl := hsame h
      exact ⟨hblank, .inr ⟨_, hdocument, _, hvalue, hlong⟩⟩
  · rintro ⟨hblank, ⟨fault, hdocument, hfault⟩ | ⟨d, hdocument, value, hvalue, hlong⟩⟩
    · exact .noSuchValue htext hblank hdocument hfault
    · exact .longInteger htext hblank hdocument hvalue hlong

theorem ofText_tolerable {root : Location} {file text : String} {bytes : ByteArray}
    (htext : Tree.decodeText bytes = .ok text) :
    Tolerable (ofText root file text) ↔ ¬ StopsRun bytes := by
  rw [stopsRun_iff htext]
  unfold ofText
  cases hblank : isBlankText text with
  | true => exact iff_of_true (tolerable_ok _) fun h => by cases h.1
  | false =>
    rw [if_neg Bool.false_ne_true]
    cases hdocument : Yaml.Document.ofText text.toList with
    | error fault =>
      cases fault with
      | malformed =>
        refine iff_of_true (tolerable_error.mpr rfl) ?_
        rintro ⟨-, ⟨_, h, hne⟩ | ⟨_, h, -⟩⟩
        · cases h
          exact hne rfl
        · cases h
      | _ =>
        -- no other fault of a document is tolerated
        refine iff_of_false (fun h => Bool.false_ne_true (tolerable_error.mp h)) fun h => h ?_
        exact ⟨rfl, .inl ⟨_, rfl, fun heq => by cases heq⟩⟩
    | ok d =>
      show Tolerable (ofDocument root d) ↔ _
      rw [ofDocument_tolerable]
      constructor
      · rintro hshort ⟨-, ⟨_, h, -⟩ | ⟨_, h, value, hvalue, hlong⟩⟩
        · cases h
        · cases h
          exact hshort value hvalue hlong
      · exact fun h value hvalue hlong => h ⟨rfl, .inr ⟨d, rfl, value, hvalue, hlong⟩⟩

/-! ## Files of settings -/

/-- The place where the settings for a path are looked for, if it can be told what is there. -/
structure LookedAt (t : Tree) (current : List String) (path : String) (file : Location) : Prop where
  resolved : ∃ steps, filePath t current path = .ok steps ∧
    (steps.any fun step => step.toList.contains '\x00') = false ∧ t.resolveSteps steps = .ok file
  seen : (t.exists? file).Returns

theorem readText_eq (t : Tree) (steps : List String) :
    t.readText steps = (t.readBytes steps).bind Tree.decodeText := rfl

theorem ofFile_tolerable {file : Location} (hexists : t.exists? file = .ok true) :
    Tolerable (ofFile t file) ↔ ∀ bytes, t.readBytes file = .ok bytes → ¬ StopsRun bytes := by
  obtain ⟨l, node, haccess⟩ : ∃ l node, t.access file = .ok (l, node) :=
    Tree.access_of_exists (by rw [hexists]; rfl)
  unfold ofFile
  rw [readText_eq]
  unfold Tree.readBytes
  rw [haccess]
  cases node with
  | folder => exact iff_of_true (tolerable_error.mpr rfl) fun _ h => by cases h
  | link target => exact iff_of_true (tolerable_error.mpr rfl) fun _ h => by cases h
  | file bytes =>
    have hbytes : (∀ other, Except.ok bytes = (Except.ok other : Except Fault ByteArray) →
        ¬ StopsRun other) ↔ ¬ StopsRun bytes :=
      ⟨fun h => h bytes rfl, fun h _ heq => by cases heq; exact h⟩
    dsimp only [Except.bind]
    rw [hbytes]
    cases htext : Tree.decodeText bytes with
    | ok text => exact ofText_tolerable htext
    | error fault =>
      obtain rfl := decodeText_error htext
      exact iff_of_false (fun h => Bool.false_ne_true (tolerable_error.mp h)) fun h => h (.notText htext)

theorem not_readBytes_of_not_exists {file : Location} (h : t.exists? file = .ok false)
    (bytes : ByteArray) : t.readBytes file ≠ .ok bytes := by
  unfold Tree.exists? Tree.holdsAt at h
  unfold Tree.readBytes
  cases haccess : t.access file with
  | ok found =>
    rw [haccess] at h
    cases h
  | error fault => exact fun h => by cases h

/-- What loading comes to once it is known where the settings file would be. -/
def loadAt (t : Tree) (steps : List String) : Except SettingsFault Settings :=
  if steps.any fun step => step.toList.contains '\x00' then .error (.access .nulByte)
  else
    match t.resolveSteps steps with
    | .error fault => .error (.access fault)
    | .ok file =>
      match t.exists? file with
      | .error fault => .error (.access fault)
      | .ok true => ofFile t file
      | .ok false => .ok (unset file.dropLast)

theorem load_eq : load t current path = match filePath t current path with
    | .error fault => .error (.access fault)
    | .ok steps => loadAt t steps := by
  unfold load loadAt
  cases filePath t current path with
  | error fault => rfl
  | ok steps =>
    dsimp only [Except.mapError, bind, Except.bind, pure, Except.pure]
    split
    · rfl
    · cases t.resolveSteps steps with
      | error fault => rfl
      | ok file =>
        dsimp only
        cases t.exists? file with
        | error fault => rfl
        | ok there => cases there <;> rfl

theorem loadAt_tolerable {steps : List String} : Tolerable (loadAt t steps) ↔ ∃ file,
    (steps.any fun step => step.toList.contains '\x00') = false ∧ t.resolveSteps steps = .ok file ∧
      (t.exists? file).Returns ∧ ∀ bytes, t.readBytes file = .ok bytes → ¬ StopsRun bytes := by
  -- faults of the place itself are not tolerated
  have hfault : ∀ fault, ¬ Tolerable (.error (.access fault)) := fun fault h =>
    Bool.false_ne_true (tolerable_error.mp h)
  unfold loadAt
  cases hnul : steps.any fun step => step.toList.contains '\x00' with
  | true =>
    rw [if_pos rfl]
    exact iff_of_false (hfault _) fun ⟨_, h, _⟩ => by cases h
  | false =>
    rw [if_neg Bool.false_ne_true]
    cases hresolve : t.resolveSteps steps with
    | error fault => exact iff_of_false (hfault _) fun ⟨_, _, h, _⟩ => by cases h
    | ok file =>
      simp only [Except.ok.injEq, exists_eq_left', true_and]
      cases hexists : t.exists? file with
      | error fault => exact iff_of_false (hfault _) fun ⟨⟨_, h⟩, _⟩ => by cases h
      | ok there =>
        cases there with
        | false =>
          refine iff_of_true (tolerable_ok _) ⟨⟨false, rfl⟩, fun bytes h => ?_⟩
          exact absurd h (not_readBytes_of_not_exists hexists bytes)
        | true =>
          refine (ofFile_tolerable hexists).trans (iff_and_self.mpr fun _ => ?_)
          exact ⟨true, rfl⟩

/-- Loading the settings lets a run go on if and only if the place of the settings file can be looked
at and there is no file there that stops the run. -/
theorem load_tolerable : Tolerable (load t current path) ↔ ∃ file, LookedAt t current path file ∧
    ∀ bytes, t.readBytes file = .ok bytes → ¬ StopsRun bytes := by
  rw [load_eq]
  cases hpath : filePath t current path with
  | error fault =>
    refine iff_of_false (fun h => Bool.false_ne_true (tolerable_error.mp h)) ?_
    rintro ⟨file, ⟨⟨steps, hsteps, -⟩, -⟩, -⟩
    rw [hpath] at hsteps
    cases hsteps
  | ok steps =>
    refine loadAt_tolerable.trans (exists_congr fun file => ⟨?_, ?_⟩)
    · rintro ⟨hnul, hresolve, hseen, h⟩
      exact ⟨⟨⟨steps, hpath, hnul, hresolve⟩, hseen⟩, h⟩
    · rintro ⟨⟨⟨steps', hsteps, hnul, hresolve⟩, hseen⟩, h⟩
      rw [hpath] at hsteps
      cases hsteps
      exact ⟨hnul, hresolve, hseen, h⟩

end Settings

namespace Run

variable {t : Tree} {current : List String} {path : String} {o : Options}

/-! ## Results of runs -/

theorem settingsOf_returns {project : Project} :
    (settingsOf t project).Returns ↔ Settings.Tolerable (Settings.load t [] project.root) := by
  unfold settingsOf
  cases Settings.load t [] project.root with
  | ok settings => exact iff_of_true ⟨_, rfl⟩ (Settings.tolerable_ok settings)
  | error fault =>
    rw [Settings.tolerable_error]
    dsimp only
    cases fault.isTolerated with
    | true => exact iff_of_true ⟨_, rfl⟩ rfl
    | false => exact iff_of_false (fun ⟨_, h⟩ => by cases h) Bool.false_ne_true

theorem plan_returns : (plan none t current path o).Returns ↔ KnownCategory o ∧
    ∃ project, Project.detect t current path = .ok project ∧ (settingsOf t project).Returns ∧
      (ScanRoot.ofProject t project o.filter).Returns := by
  unfold Project.detect
  constructor
  · rintro ⟨p, hp⟩
    obtain ⟨hknown, root, hroot, hdescribe, hsettings, hroots, -⟩ := plan_eq_ok.mp hp
    refine ⟨hknown, p.project, ?_, ⟨_, hsettings⟩, ⟨_, hroots⟩⟩
    exact Except.bind_eq_ok.mpr ⟨root, hroot, hdescribe⟩
  · rintro ⟨hknown, project, hdetect, ⟨⟨settings, ignored⟩, hsettings⟩, ⟨roots, hroots⟩⟩
    obtain ⟨root, hroot, hdescribe⟩ := Except.bind_eq_ok.mp hdetect
    exact ⟨⟨project, settings, ignored, roots, Registry.chosen (choice o settings)⟩,
      plan_eq_ok.mpr ⟨hknown, root, hroot, hdescribe, hsettings, hroots, rfl⟩⟩

theorem run_returns : (run none t current path o).1.Returns ↔
    (plan none t current path o).Returns := by
  constructor
  · rintro ⟨d, h⟩
    obtain ⟨p, hplan, -⟩ := run_eq_ok.mp (Prod.ext h rfl)
    exact ⟨p, hplan⟩
  · rintro ⟨p, hplan⟩
    exact ⟨_, congrArg Prod.fst (run_eq_ok.mpr ⟨p, hplan, rfl, rfl⟩)⟩

/-- Loading settings lets a run go on unless the settings file cannot be looked at or its content
stops runs; and a run of a project that can be described comes to a result unless its settings stop
it, or it cannot be told whether a workspace has compiler settings. -/
theorem run_returns_of_settings (t : Tree) :
    (∀ current path, Settings.Tolerable (Settings.load t current path) ↔
      ∃ file, Settings.LookedAt t current path file ∧
        ∀ bytes, t.readBytes file = .ok bytes → ¬ Settings.StopsRun bytes) ∧
    ∀ current path o, (∃ d, (run none t current path o).1 = .ok d) ↔ KnownCategory o ∧
      ∃ project, Project.detect t current path = .ok project ∧
        (∃ file, Settings.LookedAt t [] project.root file ∧
          ∀ bytes, t.readBytes file = .ok bytes → ¬ Settings.StopsRun bytes) ∧
        ∃ roots, ScanRoot.ofProject t project o.filter = .ok roots := by
  refine ⟨fun _ _ => Settings.load_tolerable, fun current path o => ?_⟩
  refine (run_returns.trans plan_returns).trans (and_congr_right fun _ => ?_)
  refine exists_congr fun project => and_congr_right fun _ => and_congr_left fun _ => ?_
  exact settingsOf_returns.trans Settings.load_tolerable

/-! ## A settings file that is no text -/

/-- A project with a settings file of a single byte that is no text. -/
def byteTree : Tree :=
  ⟨[(["r"], .folder), (["r", ".repodoctor.yml"], .file ⟨#[0xff]⟩)]⟩

/-- The project is described, but a run of it comes to no result. -/
theorem run_stops_on_byte :
    (∃ project, Project.detect byteTree [] "/r" = .ok project) ∧
      Settings.load byteTree [] "/r" = .error .notText ∧
      run none byteTree [] "/r" {} = (.error (.settings .notText), byteTree) := by
  refine ⟨⟨⟨.generic, "r", "/r", .unknown, false, false, none, none, none, none, none⟩, ?_⟩, ?_, ?_⟩
  · decide +kernel
  · decide +kernel
  · decide +kernel

end Run

end Checkup
