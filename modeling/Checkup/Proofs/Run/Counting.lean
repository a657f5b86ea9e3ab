import Checkup.Proofs.Repair.Apart
import Checkup.Proofs.Run.Tasks
import Mathlib.Data.Set.Card

/-!
# How many tasks are successful

Doing tasks makes each edit once, the first time it comes up. If the edits of a file leave one
another to do, then every edit that is not settled in the beginning is made, so the successful tasks
are as many as there are such edits.

* `Independent`: the edits of a file leave one another to do.
* `settled_put_iff`: an edit settles no other one.
* `length_succeeded`: the number of successful tasks.
-/

namespace Checkup

variable {E : Edits} {t : Tree} {l l' : Location} {a a' : Amendment} {s : String}

/-- The edits of a file leave one another to do, whatever edits were made before. -/
def Independent (E : Edits) (t : Tree) : Prop :=
  ∀ {t' l a a' s}, Amended E t t' → E l a → E l a' → a ≠ a' →
    a'.apply (t'.content l) = some s → a.apply (some s) = none → a.apply (t'.content l) = none

theorem Independent.of_amended {t' : Tree} (hI : Independent E t) (h : Amended E t t') :
    Independent E t' := fun h' => hI (h.trans h')

/-- An edit settles no other one. -/
theorem settled_put_iff (hE : Aimed E t) (ht : t.Ordinary) (hI : Independent E t) (hl : E l a)
    (hl' : E l' a') (hne : (l, a) ≠ (l', a')) (hw : t.Writable l')
    (hs : a'.apply (t.content l') = some s) :
    Settled (t.put l' (.file s.toUTF8)) l a ↔ Settled t l a := by
  have hamended : Amended E t (t.put l' (.file s.toUTF8)) := .step .refl hl' hw hs
  have hgrown := hamended.grown hE ht
  refine ⟨fun hsettled s' ha hwritable => ?_, hamended.settled hE ht hl⟩
  have hwritable' := (hgrown.writable_iff l).mpr hwritable
  by_cases hsame : l = l'
  · subst hsame
    have hother : a ≠ a' := fun heq => hne (by rw [heq])
    have hidle : a.apply (some s) = none := by
      by_contra hsome
      obtain ⟨s'', hs''⟩ := Option.ne_none_iff_exists'.mp hsome
      rw [← hE.content_put ht hl' hw hs] at hs''
      exact hsettled s'' hs'' hwritable'
    rw [hI .refl hl hl' hother hs hidle] at ha
    cases ha
  · have hnode : (t.put l' (.file s.toUTF8)).node? l = t.node? l := by
      rw [Tree.node?_put t (hE.ne_nil hl'), if_neg hsame]
    rw [← Tree.content_congr ht hgrown.new (hE.plain hl) hnode] at ha
    exact hsettled s' ha hwritable'

namespace Run

variable {ignoreRules : List IgnoreRule} {tasks : List Task} {edit : Task → Location × Amendment}

/-- The edits of some tasks that are not settled. -/
def pending (edit : Task → Location × Amendment) (tasks : List Task) (t : Tree) :
    Set (Location × Amendment) :=
  {e | (∃ task ∈ tasks, edit task = e) ∧ ¬ Settled t e.1 e.2}

theorem finite_pending : (pending edit tasks t).Finite := by
  refine (tasks.map edit).finite_toSet.subset ?_
  rintro e ⟨⟨task, htask, rfl⟩, -⟩
  exact List.mem_map_of_mem htask

/-- A task whose edit is settled leaves the same edits to be made. -/
theorem pending_of_settled {task : Task} (hs : Settled t (edit task).1 (edit task).2) :
    pending edit (task :: tasks) t = pending edit tasks t := by
  ext e
  refine and_congr_left fun hpending => ?_
  rw [List.exists_mem_cons_iff, or_iff_right]
  rintro rfl
  exact hpending hs

/-- A task that makes its edit leaves all other ones to be made. -/
theorem pending_of_made (hE : Aimed E t) (ht : t.Ordinary) (hI : Independent E t) {task : Task}
    (htarget : E (edit task).1 (edit task).2)
    (hrest : ∀ task ∈ tasks, E (edit task).1 (edit task).2)
    (hs : ¬ Settled t (edit task).1 (edit task).2) (hw : t.Writable (edit task).1)
    (ha : (edit task).2.apply (t.content (edit task).1) = some s) :
    pending edit (task :: tasks) t =
      insert (edit task) (pending edit tasks (t.put (edit task).1 (.file s.toUTF8))) := by
  ext e
  rw [Set.mem_insert_iff]
  by_cases he : e = edit task
  · subst he
    exact iff_of_true ⟨⟨task, List.mem_cons_self .., rfl⟩, hs⟩ (.inl rfl)
  · rw [or_iff_right he]
    constructor
    · rintro ⟨⟨other, hother, rfl⟩, hpending⟩
      have hother : other ∈ tasks := (List.mem_cons.mp hother).resolve_left fun h => he (by rw [h])
      refine ⟨⟨other, hother, rfl⟩, fun hsettled => hpending ?_⟩
      exact (settled_put_iff hE ht hI (hrest other hother) htarget he hw ha).mp hsettled
    · rintro ⟨⟨other, hother, rfl⟩, hpending⟩
      refine ⟨⟨other, List.mem_cons_of_mem _ hother, rfl⟩, fun hsettled => hpending ?_⟩
      exact (settled_put_iff hE ht hI (hrest other hother) htarget he hw ha).mpr hsettled

/-- As many tasks are successful as there are edits that are not settled. -/
theorem length_succeeded (hE : Aimed E t) (ht : t.Ordinary) (hI : Independent E t)
    (hedit : ∀ task ∈ tasks, task.IsEdit ignoreRules (edit task).1 (edit task).2 ∧
      E (edit task).1 (edit task).2) :
    ((performAll ignoreRules tasks t).1.filter Attempt.succeeded).length =
      (pending edit tasks t).ncard := by
  induction tasks generalizing t with
  | nil =>
    have hnone : pending edit [] t = ∅ := by
      ext e
      exact iff_of_false (fun ⟨⟨_, htask, _⟩, _⟩ => List.not_mem_nil htask) id
    rw [hnone, Set.ncard_empty]
    rfl
  | cons task rest ih =>
    obtain ⟨⟨hfirst, htarget⟩, hrest⟩ := List.forall_mem_cons.mp hedit
    rw [performAll_cons]
    by_cases hs : Settled t (edit task).1 (edit task).2
    · obtain ⟨htree, hfailed⟩ := perform_of_settled hE ht hfirst htarget hs
      rw [List.filter_cons_of_neg (by rw [hfailed]; exact Bool.false_ne_true), htree,
        ih hE ht hI hrest, pending_of_settled hs]
    · obtain ⟨s, ha, hw, hperform⟩ := perform_of_not_settled hE ht hfirst htarget hs
      have hamended : Amended E t (t.put (edit task).1 (.file s.toUTF8)) :=
        .step .refl htarget hw ha
      have hgrown := hamended.grown hE ht
      have hdone := hE.settled_put ht htarget hw ha
      rw [hperform, List.filter_cons_of_pos rfl, List.length_cons,
        ih (hE.of_grown hgrown) hgrown.new (hI.of_amended hamended) hrest,
        pending_of_made hE ht hI htarget (fun task htask => (hrest task htask).2) hs hw ha,
        Set.ncard_insert_of_notMem (fun hmem => hmem.2 hdone) finite_pending]

end Run

end Checkup
