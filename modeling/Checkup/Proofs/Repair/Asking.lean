import Checkup.Proofs.Repair.Complaints
import Checkup.Proofs.Run.Targets

/-!
# What findings ask for

A finding of a rule with a repair names a file and complains of what it says. The repair amends this
file, and the amendment is what the complaint asks for.

* `Asks`: a finding with the amendment that it asks for.
* `exists_asks`: every finding of a rule with a repair asks for one.
* `Asks.unique`: it asks for one only, whatever the tree.
-/

namespace Checkup

variable {c : Context} {t t' : Tree} {rule : Rule} {f : Finding} {l l' : Location} {a a' : Amendment}

/-- A finding of a rule asks for an amendment of the file that it names. The kind of a project only
matters to the rules that check it as a whole. -/
structure Asks (c : Context) (t : Tree) (rule : Rule) (f : Finding) (l : Location) (a : Amendment) :
    Prop where
  repairs : Repairs c f rule f.file a
  place : c.place f.file = .ok l
  rule : a.ruleId = f.rule
  complaint : ∀ kind, (c.isWorkspace = false → kind = c.project.kind) →
    Complains kind (t.content l) f.message a

/-! ## The findings of the rules -/

theorem asks_strict (ht : t.Ordinary) (hf : f ∈ Hygiene.StrictTyping.check c t) :
    ∃ l, Asks c t Hygiene.StrictTyping.rule f l .makeStrict := by
  obtain ⟨-, ⟨settings, hread, hsilent⟩, rfl⟩ := mem_strict_iff.mp hf
  obtain ⟨l, hplace, hmembers⟩ := Context.exists_place_members ht hread
  exact ⟨l, .strict, hplace, rfl, fun _ _ => .strict hmembers hsilent rfl⟩

theorem asks_engine (ht : t.Ordinary) (hf : f ∈ Hygiene.EngineVersion.check c t) :
    ∃ l, Asks c t Hygiene.EngineVersion.rule f l .stateEngine := by
  obtain ⟨⟨manifest, hread, hsilent⟩, rfl⟩ := mem_engine_iff.mp hf
  obtain ⟨l, hplace, hmembers⟩ := Context.exists_place_members ht hread
  exact ⟨l, .engine, hplace, rfl, fun _ _ => .engine hmembers hsilent rfl⟩

theorem asks_ignore (ht : t.Ordinary) (hf : f ∈ Hygiene.GitIgnore.check c t) :
    ∃ l, Asks c t Hygiene.GitIgnore.rule f l (.ignore c.project.kind f.message) := by
  obtain ⟨hworkspace, hfinding⟩ := mem_ignore_iff.mp hf
  have hplace := Context.place_name Aimed.isName_gitignore (by decide) c
  rw [Context.readNonempty?_of_place ht hplace] at hfinding
  rcases hfinding with ⟨hnone, rfl⟩ | ⟨text, htext, e, he, rfl⟩
  · refine ⟨_, .ignore, hplace, rfl, fun kind hkind => ?_⟩
    rw [hkind hworkspace]
    exact .ignored (.all hnone)
  · refine ⟨_, .ignore, hplace, rfl, fun kind hkind => ?_⟩
    rw [hkind hworkspace]
    exact .ignored (.one htext he)

theorem asks_protocol (ht : t.Ordinary) (hlegible : c.project.Legible)
    (hf : f ∈ Monorepo.WorkspaceProtocol.check c t) :
    ∃ l dependency, Asks c t Monorepo.WorkspaceProtocol.rule f l (.localize dependency) := by
  obtain ⟨-, w, -, manifest, hread, dependency, value, version, hmem, hversion, hname, hfinding⟩ :=
    mem_protocol_iff.mp hf
  obtain ⟨l, hplace, hmembers⟩ := Context.exists_place_members ht hread
  have hdependency : dependencyOf c (plainDependency w dependency version) = some dependency :=
    dependencyOf_plainDependency hlegible w hname
  have hword : ∀ c ∈ dependency.nearest.toList, Text.isBlank c = false := by
    rw [List.contains_iff_mem] at hname
    obtain ⟨w', hw', rfl⟩ := List.mem_map.mp hname
    exact (hlegible w' hw').2
  rw [← hfinding] at hdependency
  have hfile : f.file = Monorepo.fileIn w "package.json" := congrArg Finding.file hfinding
  rw [← hfile] at hplace
  exact ⟨l, dependency, .protocol hdependency, hplace, (congrArg Finding.rule hfinding).symm,
    fun _ _ => .protocol hmembers hword hmem hversion (congrArg Finding.message hfinding)⟩

theorem asks_directive (ht : t.Ordinary) (hf : f ∈ Application.ClientDirective.check c t) :
    ∃ l, Asks c t Application.ClientDirective.rule f l .direct := by
  obtain ⟨path, -, -, text, hread, hmark, name, htrigger, hfinding⟩ := mem_directive_iff.mp hf
  obtain ⟨htext, -⟩ := Option.filter_eq_some_iff.mp hread
  obtain ⟨l, hplace, hcontent⟩ := Context.exists_place ht htext
  have hfile : f.file = path := congrArg Finding.file hfinding
  rw [← hfile] at hplace
  exact ⟨l, .directive, hplace, (congrArg Finding.rule hfinding).symm,
    fun _ _ => .directive hcontent hmark htrigger (congrArg Finding.message hfinding)⟩

/-- What a rule with a repair finds asks for an amendment. -/
theorem exists_asks (ht : t.Ordinary) (hlegible : c.project.Legible) (hrule : rule ∈ Registry.fixing)
    {found : List Finding} (hcheck : rule.check c t = .ok found) (hf : f ∈ found) :
    ∃ l a, Asks c t rule f l a := by
  unfold Registry.fixing at hrule
  simp only [List.mem_cons, List.not_mem_nil, or_false] at hrule
  have hf := (Except.mem_of_mem_ok hcheck).mp hf
  rcases hrule with rfl | rfl | rfl | rfl | rfl
  · obtain ⟨l, h⟩ := asks_directive ht (Except.mem_ok_iff.mp hf)
    exact ⟨l, _, h⟩
  · obtain ⟨l, dependency, h⟩ := asks_protocol ht hlegible hf
    exact ⟨l, _, h⟩
  · obtain ⟨l, h⟩ := asks_strict ht hf
    exact ⟨l, _, h⟩
  · obtain ⟨l, h⟩ := asks_engine ht hf
    exact ⟨l, _, h⟩
  · obtain ⟨l, h⟩ := asks_ignore ht (Except.mem_ok_iff.mp hf)
    exact ⟨l, _, h⟩

theorem Repairs.dependencyOf_eq {file : String} {dependency : Label}
    (h : Repairs c f rule file (.localize dependency)) : dependencyOf c f = some dependency := by
  cases h with
  | protocol hd => exact hd

theorem Repairs.ignore_eq {file : String} {message : Label} {kind : Kind}
    (h : Repairs c f rule file (.ignore kind message)) :
    kind = c.project.kind ∧ message = f.message := by
  cases h
  exact ⟨rfl, rfl⟩

namespace Asks

/-- What a finding asks for does not depend on the tree. -/
theorem unique (h : Asks c t rule f l a) (h' : Asks c t' rule f l' a') : l' = l ∧ a' = a := by
  have hplace : l' = l := by
    have hsame := h'.place
    rw [h.place] at hsame
    exact (Except.ok.inj hsame).symm
  refine ⟨hplace, ?_⟩
  rcases Amendment.eq_of_ruleId (h'.rule.trans h.rule.symm) with heq |
    ⟨dependency', dependency, rfl, rfl⟩ | ⟨_, _, _, _, rfl, rfl⟩
  · exact heq
  · have hsame := h'.repairs.dependencyOf_eq
    rw [h.repairs.dependencyOf_eq] at hsame
    rw [Option.some.inj hsame]
  · obtain ⟨rfl, rfl⟩ := h.repairs.ignore_eq
    obtain ⟨rfl, rfl⟩ := h'.repairs.ignore_eq
    rfl

/-- There is something to amend. -/
theorem exists_apply (h : Asks c t rule f l a) : ∃ s, a.apply (t.content l) = some s :=
  Option.ne_none_iff_exists'.mp (h.complaint c.project.kind fun _ => rfl).isSome_apply

end Asks

end Checkup
