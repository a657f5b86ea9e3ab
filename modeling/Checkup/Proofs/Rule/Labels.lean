import Checkup.Proofs.Repair.Effect
import Checkup.Proofs.Scan.Reading
import Checkup.Rule.Registry

/-!
# What findings say

Messages are put together from fixed texts and from names and versions in manifests. A name may hold
half of a UTF-16 pair, but no message brings the halves of a pair together, so each of them is read
again as it is written.

* `Json.IsSound.append`, `Json.isSound_joinWith`: labels put together.
* `Manifest.isSound_label?`, `Manifest.readable_dependencies`: what manifests say.
* `Registry.sound_builtIn`: what the built-in rules say.
-/

namespace Checkup

/-! ## Labels put together -/

namespace Json

variable {a b : Label}

theorem isHalf_of_mem_text {s : String} {n : Nat} (h : n ∈ (Label.text s).points) :
    Text.isHalf n = false := by
  obtain ⟨c, -, rfl⟩ := List.mem_map.mp h
  exact Text.isHalf_toNat c

/-- No pair comes about where the first label ends or the second one begins with a character. -/
theorem IsSound.append (ha : IsSound a) (hb : IsSound b)
    (h : (∀ n ∈ a.points.getLast?, Text.isHalf n = false) ∨
      ∀ n ∈ b.points.head?, Text.isHalf n = false) : IsSound (a ++ b) := by
  unfold IsSound
  rw [Label.points_append]
  refine List.isChain_append.mpr ⟨ha, hb, fun n hn m hm => ?_⟩
  rcases h with h | h
  · have hn := h n hn
    simp only [Text.isHalf, Bool.or_eq_false_iff] at hn
    rw [hn.1, Bool.false_and]
  · have hm := h m hm
    simp only [Text.isHalf, Bool.or_eq_false_iff] at hm
    rw [hm.2, Bool.and_false]

theorem IsSound.append_text (h : IsSound a) (s : String) : IsSound (a ++ .text s) :=
  h.append (isSound_text s) (.inr fun _ hn => isHalf_of_mem_text (List.mem_of_mem_head? hn))

theorem IsSound.text_append (h : IsSound a) (s : String) : IsSound (.text s ++ a) :=
  (isSound_text s).append h (.inl fun _ hn => isHalf_of_mem_text (List.mem_of_mem_getLast? hn))

/-- A text sets two labels apart. -/
theorem IsSound.between (ha : IsSound a) (hb : IsSound b) {sep : String} (hsep : sep ≠ "") :
    IsSound (a ++ .text sep ++ b) := by
  refine (ha.append_text sep).append hb (.inl fun n hn => ?_)
  have hpoints : (Label.text sep).points ≠ [] := fun h =>
    hsep (String.toList_eq_nil_iff.mp (List.map_eq_nil_iff.mp h))
  rw [Label.points_append, List.getLast?_append_of_ne_nil _ hpoints] at hn
  exact isHalf_of_mem_text (List.mem_of_mem_getLast? hn)

theorem isSound_joinWith {sep : String} (hsep : sep ≠ "") {labels : List Label}
    (h : ∀ l ∈ labels, IsSound l) : IsSound (Label.joinWith sep labels) := by
  fun_induction Label.joinWith sep labels with
  | case1 => exact isSound_text ""
  | case2 l => exact h l (List.mem_singleton_self l)
  | case3 l next rest ih =>
    obtain ⟨hl, hrest⟩ := List.forall_mem_cons.mp h
    exact hl.between (ih hrest) hsep

theorem isSound_firstFive {names : List Label} (h : ∀ l ∈ names, IsSound l) :
    IsSound (firstFive names) :=
  (isSound_joinWith (by decide) fun l hl => h l (List.mem_of_mem_take hl)).append_text _

/-- A string that was read is a sound label. -/
theorem isSound_of_text? {v : Json} (hv : Readable v) {l : Label} (h : v.text? = some l) :
    IsSound l := by
  cases hv with
  | str s =>
    cases h
    exact isSound_text s
  | loose hloose =>
    cases h
    exact isSound_ofPoints ⟨hloose.point, hloose.apart⟩
  | _ => cases h

end Json

/-! ## What manifests say -/

namespace Manifest

variable {manifest : Json.Members}

theorem isSound_label? (h : ∀ m ∈ manifest, Json.Readable m.2) {name : String} {l : Label}
    (hl : label? manifest name = some l) : Json.IsSound l := by
  obtain ⟨value, hvalue, hlabel⟩ := Option.bind_eq_some_iff.mp hl
  exact Json.isSound_of_text? (h _ (Json.mem_of_get? hvalue)) (Option.filter_eq_some_iff.mp hlabel).1

theorem readable_members (h : Json.Readable (.obj manifest)) :
    ∀ m ∈ manifest, Json.IsSound m.1 ∧ Json.Readable m.2 := by
  cases h with
  | obj hk _ hr => exact fun m hm => ⟨hk m hm, hr m hm⟩

theorem readable_dependencies (h : Json.Readable (.obj manifest)) :
    ∀ m ∈ dependencies manifest, Json.IsSound m.1 ∧ Json.Readable m.2 := by
  have hsection : ∀ name, ∀ m ∈ (section? manifest name).getD [],
      Json.IsSound m.1 ∧ Json.Readable m.2 := by
    intro name m hm
    have hread := readable_section h name
    cases hmembers : section? manifest name with
    | none =>
      rw [hmembers] at hm
      cases hm
    | some members =>
      rw [hmembers] at hread hm
      exact readable_members hread m hm
  intro m hm
  rcases Json.mem_merge _ _ hm with hm | hm
  · rcases Json.mem_merge _ _ hm with hm | hm
    · cases hm
    · exact hsection _ m hm
  · exact hsection _ m hm

end Manifest

/-! ## Findings -/

/-- What a finding says, in a message and a help text. -/
def Finding.labels (f : Finding) : List Label := [f.message, f.help]

/-- What a finding says is read again as it is written. -/
def Finding.IsSound (f : Finding) : Prop := ∀ l ∈ f.labels, Json.IsSound l

namespace Finding

variable {info : RuleInfo} {file : String} {f : Finding}

theorem isSound_iff : f.IsSound ↔ Json.IsSound f.message ∧ Json.IsSound f.help := by
  simp [IsSound, labels]

theorem isSound_remark {message : Label} (h : Json.IsSound message) : (info.remark file message).IsSound :=
  isSound_iff.mpr ⟨h, Json.isSound_text info.help⟩

@[simp]
theorem isSound_finding (message : String) : (info.finding file message).IsSound :=
  isSound_remark (Json.isSound_text message)

@[simp]
theorem isSound_asFixable : f.asFixable.IsSound ↔ f.IsSound := Iff.rfl

@[simp]
theorem isSound_atLine (line : Nat) : (f.atLine line).IsSound ↔ f.IsSound := Iff.rfl

theorem IsSound.withHelp (h : f.IsSound) {help : Label} (hhelp : Json.IsSound help) :
    (f.withHelp help).IsSound := by
  unfold Finding.withHelp
  split
  · exact h
  · exact isSound_iff.mpr ⟨(isSound_iff.mp h).1, hhelp⟩

@[simp]
theorem isSound_withHelp_text (h : f.IsSound) (help : String) : (f.withHelp (.text help)).IsSound :=
  h.withHelp (Json.isSound_text help)

end Finding

/-! ## Rules -/

/-- What the rule says is read again as it is written, if the names of the workspaces are. -/
def Rule.IsSound (r : Rule) : Prop := ∀ c t, (∀ w ∈ c.project.workspaceList, Json.IsSound w.name) →
  ∀ f ∈ r.check c t, f.IsSound

namespace Rule

variable {info : RuleInfo}

theorem isSound_ofCheck {check : Context → Tree → List Finding}
    (h : ∀ c t, (∀ w ∈ c.project.workspaceList, Json.IsSound w.name) → ∀ f ∈ check c t, f.IsSound) :
    (ofCheck info check).IsSound :=
  fun c t hnames f hf => h c t hnames f (Except.mem_ok_iff.mp hf)

theorem IsSound.withFix {r : Rule} (h : r.IsSound) (fix : Context → Tree → Finding → Repair) :
    (r.withFix fix).IsSound := h

/-- What is found in a file is sound if it is so for members that can be read. -/
theorem sound_findingsIn {c : Context} {t : Tree} {path : String}
    {report : Json.Members → List Finding}
    (h : ∀ members, Json.Readable (.obj members) → ∀ f ∈ report members, f.IsSound) :
    ∀ f ∈ findingsIn c t path report, f.IsSound := by
  intro f hf
  obtain ⟨members, hread, hf⟩ := mem_findingsIn_iff.mp hf
  exact h members (Amendment.fits_membersOf hread).readable f hf

end Rule

/-! ### Applications -/

namespace Application

theorem sound_forFiles {p : Pattern} {report : String → String → List Finding}
    (h : ∀ path text, ∀ f ∈ report path text, f.IsSound) (c : Context) (t : Tree) :
    ∀ f ∈ forFiles p report c t, f.IsSound := by
  unfold forFiles
  refine List.forall_mem_flatMap.mpr fun path _ => ?_
  split
  · simp
  · exact h path _

theorem sound_forLines {text : String} {report : Nat → List Char → List Finding}
    (h : ∀ number line, ∀ f ∈ report number line, f.IsSound) : ∀ f ∈ forLines text report, f.IsSound :=
  List.forall_mem_flatMap.mpr fun line _ => h line.1 line.2

theorem sound_rootLayout : RootLayout.rule.IsSound := by
  refine Rule.isSound_ofCheck fun c t _ => ?_
  unfold RootLayout.check
  split <;> simp

theorem sound_layoutTags : LayoutTags.rule.IsSound := by
  refine Rule.isSound_ofCheck fun c t _ => ?_
  unfold LayoutTags.check
  split
  · simp
  · split <;> split <;> simp

theorem sound_pageExport : PageExport.rule.IsSound := by
  refine Rule.isSound_ofCheck fun c t _ => sound_forFiles (fun path text => ?_) c t
  split <;> simp

theorem sound_pageMetadata : PageMetadata.rule.IsSound := by
  refine Rule.isSound_ofCheck fun c t _ => sound_forFiles (fun path text => ?_) c t
  split <;> simp

theorem sound_loadingState : LoadingState.rule.IsSound := by
  refine Rule.isSound_ofCheck fun c t _ => sound_forFiles (fun path text => ?_) c t
  split <;> simp

theorem sound_clientDirective : ClientDirective.rule.IsSound := by
  refine (Rule.isSound_ofCheck fun c t _ => ?_).withFix _
  refine List.forall_mem_flatMap.mpr fun path _ => ?_
  split
  · simp
  split
  · simp
  split
  · simp
  split <;> simp

theorem sound_serverHooks : ServerHooks.rule.IsSound := by
  refine Rule.isSound_ofCheck fun c t _ => sound_forFiles (fun path text => ?_) c t
  split
  · simp
  · refine sound_forLines fun number line => ?_
    split <;> simp

theorem sound_imageComponent : ImageComponent.rule.IsSound := by
  refine Rule.isSound_ofCheck fun c t _ =>
    sound_forFiles (fun path text => sound_forLines fun number line => ?_) c t
  split <;> simp

theorem sound_linkComponent : LinkComponent.rule.IsSound := by
  refine Rule.isSound_ofCheck fun c t _ =>
    sound_forFiles (fun path text => sound_forLines fun number line => ?_) c t
  split
  · simp
  · split <;> simp

theorem sound_routeHandler : RouteHandler.rule.IsSound := by
  refine Rule.isSound_ofCheck fun c t _ => sound_forFiles (fun path text => ?_) c t
  split <;> simp

end Application

/-! ### Hygiene -/

namespace Hygiene

theorem sound_lockFile : SingleLockFile.rule.IsSound := by
  refine Rule.isSound_ofCheck fun c t _ => ?_
  unfold SingleLockFile.check
  split
  · simp
  · split <;> simp

theorem sound_nestedModules : NestedModules.rule.IsSound :=
  Rule.isSound_ofCheck fun c t _ => List.forall_mem_map.mpr fun folder _ => by simp

theorem sound_strictTyping : StrictTyping.rule.IsSound := by
  intro c t _ f hf
  have hf : f ∈ StrictTyping.check c t := hf
  unfold StrictTyping.check at hf
  split at hf
  · cases Except.mem_ok_iff.mp hf
  · refine Rule.sound_findingsIn (fun settings _ => ?_) f hf
    unfold StrictTyping.findings
    split <;> simp

theorem sound_engineVersion : EngineVersion.rule.IsSound := by
  refine fun c t _ => Rule.sound_findingsIn fun manifest _ => ?_
  unfold EngineVersion.findings
  split <;> simp

theorem sound_gitIgnore : GitIgnore.rule.IsSound := by
  refine (Rule.isSound_ofCheck fun c t _ => ?_).withFix _
  unfold GitIgnore.check
  split
  · simp
  split
  · simp
  · exact List.forall_mem_map.mpr fun e _ => by simp

theorem sound_environmentExample : EnvironmentExample.rule.IsSound := by
  refine Rule.isSound_ofCheck fun c t _ => ?_
  unfold EnvironmentExample.check
  split <;> simp

theorem sound_unusedDependencies : UnusedDependencies.rule.IsSound := by
  refine fun c t _ => Rule.sound_findingsIn fun manifest hread => ?_
  unfold UnusedDependencies.findings
  cases hsection : Manifest.section? manifest "dependencies" with
  | none => simp
  | some dependencies =>
    have hread := readable_section hread "dependencies"
    rw [hsection] at hread
    have hnames : ∀ d ∈ UnusedDependencies.unused c t dependencies, Json.IsSound d := by
      intro d hd
      obtain ⟨m, hm, rfl⟩ := List.mem_map.mp (List.mem_filter.mp hd).1
      exact (Manifest.readable_members hread m hm).1
    dsimp only
    split
    · simp
    · refine List.forall_mem_singleton.mpr (.withHelp (Finding.isSound_remark ?_) ?_)
      · exact (Json.isSound_firstFive hnames).text_append _
      · exact (Json.isSound_joinWith (by decide) hnames).text_append _

end Hygiene

/-! ### Dead code -/

namespace DeadCode

theorem sound_orphanFiles : OrphanFiles.rule.IsSound := by
  refine Rule.isSound_ofCheck fun c t _ => ?_
  unfold OrphanFiles.check
  dsimp only
  split
  · simp
  · exact List.forall_mem_map.mpr fun path _ => by simp

theorem sound_unusedComponents : UnusedComponents.rule.IsSound := by
  refine Rule.isSound_ofCheck fun c t _ => ?_
  unfold UnusedComponents.check
  dsimp only
  split
  · simp
  · exact List.forall_mem_map.mpr fun path _ => by simp

theorem sound_unusedExports : UnusedExports.rule.IsSound := by
  have hfindings : ∀ c t, ∀ f ∈ UnusedExports.findings c t, f.IsSound := by
    intro c t
    unfold UnusedExports.findings
    dsimp only
    split
    · simp
    · exact List.forall_mem_map.mpr fun e _ => by simp
  rintro c t _ f ⟨found, hfound, hf⟩
  have hcheck : UnusedExports.check c t = .ok found := hfound
  unfold UnusedExports.check at hcheck
  cases hmanifest : Rule.members c t Manifest.fileName with
  | error fault =>
    rw [hmanifest] at hcheck
    cases hcheck
  | ok manifest =>
    rw [hmanifest] at hcheck
    cases hcheck
    dsimp only at hf
    split at hf
    · cases hf
    · exact hfindings c t f hf

end DeadCode

/-! ### Monorepos -/

namespace Monorepo

theorem sound_runnerConfig : RunnerConfig.rule.IsSound := by
  intro c t _ f hf
  have hf : f ∈ RunnerConfig.check c t := hf
  unfold RunnerConfig.check at hf
  split at hf
  · cases Except.mem_ok_iff.mp hf
  · refine Rule.sound_findingsIn (fun manifest _ => ?_) f hf
    unfold RunnerConfig.findings
    split <;> simp

theorem isSound_message {dependency version : Label} (hd : Json.IsSound dependency)
    (hv : Json.IsSound version) : Json.IsSound (WorkspaceProtocol.message dependency version) :=
  (hd.between hv (by decide)).append_text _

theorem sound_workspaceProtocol : WorkspaceProtocol.rule.IsSound := by
  intro c t _ f hf
  obtain ⟨-, w, -, hf⟩ := Except.mem_flatten_mapM_iff.mp hf
  refine Rule.sound_findingsIn (fun manifest hread => ?_) f hf
  refine List.forall_mem_flatMap.mpr fun ⟨dependency, value⟩ hm => ?_
  obtain ⟨hkey, hvalue⟩ := Manifest.readable_dependencies hread _ hm
  dsimp only
  split
  · rename_i version hversion
    have hv := Json.isSound_of_text? hvalue (Option.filter_eq_some_iff.mp hversion).1
    split
    · refine List.forall_mem_singleton.mpr (Finding.isSound_asFixable.mpr ?_)
      exact Finding.isSound_remark (isSound_message hkey hv)
    · simp
  · simp

theorem sound_sharedCompilerConfig : SharedCompilerConfig.rule.IsSound := by
  refine Rule.isSound_ofCheck fun c t hnames => ?_
  unfold SharedCompilerConfig.check
  split
  · refine List.forall_mem_flatMap.mpr fun w hw => ?_
    dsimp only
    split
    · simp
    split
    · simp
    · exact List.forall_mem_singleton.mpr (Finding.isSound_remark ((hnames w hw).append_text _))
  · simp

theorem sound_rootDependencies : RootDependencies.rule.IsSound := by
  refine fun c t _ => Rule.sound_findingsIn fun manifest hread => ?_
  unfold RootDependencies.findings
  cases hsection : Manifest.section? manifest "dependencies" with
  | none => simp
  | some dependencies =>
    have hread := readable_section hread "dependencies"
    rw [hsection] at hread
    dsimp only
    split
    · simp
    · refine List.forall_mem_singleton.mpr (.withHelp (Finding.isSound_remark ?_) (Json.isSound_text _))
      refine (Json.isSound_firstFive fun d hd => ?_).text_append _
      obtain ⟨m, hm, rfl⟩ := List.mem_map.mp (List.mem_filter.mp hd).1
      exact (Manifest.readable_members hread m hm).1

theorem sound_taskCoverage : TaskCoverage.rule.IsSound := by
  intro c t _ f hf
  obtain ⟨found, hfound, hf⟩ := hf
  obtain ⟨config, -, hfound⟩ := Except.bind_eq_ok.mp hfound
  cases config with
  | none =>
    cases hfound
    cases hf
  | some config =>
    obtain ⟨declared, -, hfound⟩ := Except.bind_eq_ok.mp hfound
    cases hfound
    revert f
    exact List.forall_mem_map.mpr fun script _ => by simp

theorem sound_workspaceNames : WorkspaceNames.rule.IsSound := by
  refine Rule.isSound_ofCheck fun c t hnames => ?_
  unfold WorkspaceNames.check
  split
  · refine List.forall_mem_map.mpr fun w hw => Finding.isSound_remark ?_
    exact (hnames w (List.mem_filter.mp hw).1).append_text _
  · simp

end Monorepo

/-- The built-in rules are sound. -/
theorem Registry.sound_builtIn : ∀ r ∈ builtIn, r.IsSound := by
  unfold builtIn Application.rules Monorepo.rules Hygiene.rules DeadCode.rules
  simp only [List.forall_mem_append, List.forall_mem_cons]
  exact ⟨⟨⟨⟨Application.sound_rootLayout, Application.sound_layoutTags, Application.sound_pageExport,
    Application.sound_clientDirective, Application.sound_serverHooks, Application.sound_pageMetadata,
    Application.sound_imageComponent, Application.sound_linkComponent,
    Application.sound_routeHandler, Application.sound_loadingState, by simp⟩,
    Monorepo.sound_runnerConfig, Monorepo.sound_workspaceProtocol,
    Monorepo.sound_sharedCompilerConfig, Monorepo.sound_rootDependencies,
    Monorepo.sound_taskCoverage, Monorepo.sound_workspaceNames, by simp⟩,
    Hygiene.sound_lockFile, Hygiene.sound_nestedModules, Hygiene.sound_strictTyping,
    Hygiene.sound_engineVersion, Hygiene.sound_gitIgnore, Hygiene.sound_environmentExample,
    Hygiene.sound_unusedDependencies, by simp⟩, DeadCode.sound_orphanFiles,
    DeadCode.sound_unusedExports, DeadCode.sound_unusedComponents, by simp⟩

end Checkup
