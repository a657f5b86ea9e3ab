import Checkup.Proofs.Repair.Asking
import Checkup.Proofs.Run.Counting
import Checkup.Proofs.Run.Reported
import Checkup.Proofs.Run.WriteSet

/-!
# What is outstanding

Every task of a run has a file to amend, and the amendment is what its finding complains of. So what
a run reports of a task tells its edit, and the edits of a run leave one another to do: the number of
repairs is the number of edits that are not settled in the beginning.

* `Outstanding`: the edit of a task, with the complaint that asks for it; `exists_outstanding`: every
  task has one.
* `independent_edits`: the edits leave one another to do.
* `same_edit_iff`: what is reported tells the edit.
* `length_succeeded`: the number of repairs.
-/

namespace Checkup

variable {t : Tree} {l : Location}

namespace Run

variable {root : Location} {p : Plan} {task task' : Task} {l' : Location} {a a' : Amendment}

/-- What a task is to amend, as its finding complains of it. -/
structure Outstanding (t : Tree) (root : Location) (p : Plan) (task : Task) (l : Location)
    (a : Amendment) : Prop where
  edit : task.IsEdit p.ignoreRules l a
  place : l = Tree.lexical root (Path.steps task.reported.file)
  rule : a.ruleId = task.reported.rule
  complaint : Complains p.project.kind (t.content l) task.reported.message a

/-- The place of a task's file is the one that the report names. -/
theorem Planned.place_report (hp : Planned t root p) {r : ScanRoot} (hr : IsRoot t p.project r)
    {f : Finding} (hfile : Path.isAbsolute f.file = false)
    (hplace : (r.context p.ignoreRules).place f.file = .ok l) :
    l = Tree.lexical root (Path.steps (r.report f).file) := by
  rw [Context.place_relative hfile hplace]
  exact (hp.lexical_pathInProject hr p.ignoreRules hfile).symm

/-- The names of the workspaces can be read off messages in every scan. -/
theorem IsRoot.legible {project : Project} {r : ScanRoot} (h : IsRoot t project r)
    (hlegible : project.Legible) : r.project.Legible :=
  fun _ hw => hlegible _ (h.whole_of_mem hw).1

/-- What a finding asks for is outstanding. -/
theorem Planned.outstanding_of_asks (hp : Planned t root p) {r : ScanRoot} (hr : IsRoot t p.project r)
    {rule : Rule} (hrule : rule ∈ Registry.fixing) {found : List Finding}
    (hcheck : rule.check (r.context p.ignoreRules) t = .ok found) {f : Finding} (hf : f ∈ found)
    (h : Asks (r.context p.ignoreRules) t rule f l a) : Outstanding t root p ⟨r, rule, f⟩ l a := by
  have hpaths : ∀ w ∈ (r.context p.ignoreRules).project.workspaceList,
      Path.isAbsolute w.path = false :=
    fun w hw => (hp.located w (hr.whole_of_mem hw).1).relative
  have habsolute := Registry.relative_of_found (builtIn_of_fixing hrule) hp.ordinary.named hpaths
    hcheck hf
  refine ⟨⟨f.file, h.repairs, h.place⟩, hp.place_report hr habsolute h.place, h.rule,
    h.complaint p.project.kind fun hworkspace => ?_⟩
  obtain ⟨kind, rfl⟩ := hr.whole_of_not_workspace hworkspace
  rfl

/-- Every task has something to amend that its finding complains of. -/
theorem Planned.exists_outstanding (hp : Planned t root p) (hlegible : p.project.Legible)
    (htask : task ∈ tasks p t) : ∃ l a, Outstanding t root p task l a := by
  have hrule := rules_of_tasks hp task htask
  obtain ⟨hmem, -, -, -, -, found, hcheck, hfound⟩ := mem_tasks_iff.mp htask
  have hr := hp.roots task.root hmem
  obtain ⟨l, a, hasks⟩ := exists_asks hp.ordinary (hr.legible hlegible) hrule hcheck hfound
  exact ⟨l, a, hp.outstanding_of_asks hr hrule hcheck hfound hasks⟩

/-- Two tasks have the same edit if what the run reports of them has the same rule, file and
message. -/
theorem Outstanding.same_edit_iff (h : Outstanding t root p task l a) (h' : Outstanding t root p task' l' a') :
    (l, a) = (l', a') ↔ task.reported.rule = task'.reported.rule ∧
      Tree.lexical root (Path.steps task.reported.file) =
        Tree.lexical root (Path.steps task'.reported.file) ∧
      task.reported.message = task'.reported.message := by
  constructor
  · intro heq
    obtain ⟨rfl, rfl⟩ := Prod.mk.inj heq
    exact ⟨h.rule.symm.trans h'.rule, h.place.symm.trans h'.place,
      h.complaint.message_eq h'.complaint⟩
  · rintro ⟨hrule, hplace, hmessage⟩
    obtain rfl : l = l' := h.place.trans (hplace.trans h'.place.symm)
    have hcomplaint := h'.complaint
    rw [← hmessage] at hcomplaint
    rw [h.complaint.amendment_eq hcomplaint (h.rule.trans (hrule.trans h'.rule.symm))]

/-! ## The edits of a run -/

/-- The edits that the tasks of a run are to make. -/
def edits (t : Tree) (root : Location) (p : Plan) : Edits := fun l a =>
  ∃ task ∈ tasks p t, Outstanding t root p task l a

namespace Planned

theorem aimed_edits (hp : Planned t root p) : Aimed (edits t root p) t :=
  (aimed_target hp (findings (outcomes p t))).mono fun ⟨_, htask, h⟩ => target_of_task hp htask h.edit

/-- The edits of a run leave one another to do. -/
theorem independent_edits (hp : Planned t root p) : Independent (edits t root p) t := by
  intro t' l a a' s hamended ha ha' hne hs hidle
  have hE := hp.aimed_edits
  obtain ⟨name, hname, -⟩ := hE.suits ha
  have hcomplains : ∀ a, edits t root p l a →
      ∃ message, Complains p.project.kind (t.content l) message a :=
    fun _ ⟨_, _, h⟩ => ⟨_, h.complaint⟩
  exact Complains.idle_before (fun _ ha => hE.suits_last hname ha) hcomplains
    (hamended.content hE hp.ordinary (hE.plain ha)) ha ha' hne hs hidle

/-- As many repairs are made as there are edits that are not settled. -/
theorem length_succeeded (hp : Planned t root p) {edit : Task → Location × Amendment}
    (hedit : ∀ task ∈ tasks p t, Outstanding t root p task (edit task).1 (edit task).2) :
    ((performAll p.ignoreRules (tasks p t) t).1.filter Attempt.succeeded).length =
      (pending edit (tasks p t) t).ncard :=
  Run.length_succeeded hp.aimed_edits hp.ordinary hp.independent_edits fun task htask =>
    ⟨(hedit task htask).edit, task, htask, hedit task htask⟩

end Planned

end Run

end Checkup
