import Checkup.Proofs.Run.Edits
import Checkup.Run.Basic

/-!
# Doing tasks

A task either changes nothing or makes its edit, after which the edit is settled. Doing all tasks
amends the tree and leaves every edit settled; on a tree where they are settled it does nothing.

* `perform_of_settled`, `perform_of_not_settled`: doing one task.
* `performAll_amended`: the tree after all tasks.
* `performAll_settled`: doing tasks that have nothing left to do.
-/

namespace Checkup.Run

variable {ignoreRules : List IgnoreRule} {task : Task} {tasks : List Task} {E : Edits} {t : Tree}
  {l : Location} {a : Amendment}

/-- A task is to make an amendment of the file at a location. -/
def Task.IsEdit (ignoreRules : List IgnoreRule) (task : Task) (l : Location) (a : Amendment) : Prop :=
  ∃ file, Repairs (task.root.context ignoreRules) task.finding task.rule file a ∧
    (task.root.context ignoreRules).place file = .ok l

/-- A task comes to nothing: no file changes. -/
def Task.ComesToNothing (ignoreRules : List IgnoreRule) (task : Task) (t : Tree) : Prop :=
  (task.perform ignoreRules t).2 = t ∧
    Attempt.succeeded ⟨task, (task.perform ignoreRules t).1⟩ = false

theorem perform_eq {file : String}
    (h : Repairs (task.root.context ignoreRules) task.finding task.rule file a) (t : Tree) :
    task.perform ignoreRules t = (task.root.context ignoreRules).rewrite t file a :=
  h.repair_eq t

theorem comesToNothing_of_unchanged (h : task.perform ignoreRules t = .unchanged t) :
    task.ComesToNothing ignoreRules t := by
  unfold Task.ComesToNothing
  rw [h]
  exact ⟨rfl, rfl⟩

theorem comesToNothing_of_error {fault : RuleFault}
    (h : task.perform ignoreRules t = (.error fault, t)) : task.ComesToNothing ignoreRules t := by
  unfold Task.ComesToNothing
  rw [h]
  exact ⟨rfl, rfl⟩

/-! ## One task -/

/-- A task whose edit is settled comes to nothing. -/
theorem perform_of_settled (hE : Aimed E t) (ht : t.Ordinary) (h : task.IsEdit ignoreRules l a)
    (hl : E l a) (hs : Settled t l a) : task.ComesToNothing ignoreRules t := by
  obtain ⟨file, hrepairs, hplace⟩ := h
  have hperform := perform_eq hrepairs t
  cases ha : a.apply (t.content l) with
  | none =>
    rcases Context.rewrite_of_idle ht hplace ha with hrewrite | hrewrite
    · exact comesToNothing_of_unchanged (hperform.trans hrewrite)
    · exact comesToNothing_of_error (hperform.trans hrewrite)
  | some s =>
    obtain ⟨fault, hrewrite⟩ :=
      Context.rewrite_of_not_writable ht hplace (hE.folder ht hl ha) (hs s ha) ha
    rw [hrewrite] at hperform
    exact comesToNothing_of_error hperform

/-- A task whose edit is not settled makes it. -/
theorem perform_of_not_settled (hE : Aimed E t) (ht : t.Ordinary) (h : task.IsEdit ignoreRules l a)
    (hl : E l a) (hs : ¬ Settled t l a) : ∃ s, a.apply (t.content l) = some s ∧ t.Writable l ∧
      task.perform ignoreRules t = (.ok true, t.put l (.file s.toUTF8)) := by
  obtain ⟨file, hrepairs, hplace⟩ := h
  unfold Settled at hs
  push Not at hs
  obtain ⟨s, ha, hw⟩ := hs
  refine ⟨s, ha, hw, ?_⟩
  rw [perform_eq hrepairs t, Context.rewrite_of_writable ht hplace (hE.ne_nil hl) hw ha]

/-- A task without an edit comes to nothing. -/
theorem perform_of_no_edit (ht : t.Ordinary) (hrule : task.rule ∈ Registry.fixing)
    (h : ∀ l a, ¬ task.IsEdit ignoreRules l a) : task.ComesToNothing ignoreRules t := by
  rcases repairs_or_idle (c := task.root.context ignoreRules) hrule task.finding with
    ⟨file, a, hrepairs⟩ | hidle
  · cases hplace : (task.root.context ignoreRules).place file with
    | ok l => exact absurd ⟨file, hrepairs, hplace⟩ (h l a)
    | error fault =>
      have hperform := perform_eq hrepairs t
      rcases Context.rewrite_of_error (a := a) ht hplace with hrewrite | hrewrite
      · rw [hrewrite] at hperform
        exact comesToNothing_of_unchanged hperform
      · rw [hrewrite] at hperform
        exact comesToNothing_of_error hperform
  · exact comesToNothing_of_unchanged (hidle t)

/-- A task amends the tree, and settles its edit. -/
theorem perform_amended (hE : Aimed E t) (ht : t.Ordinary) (hrule : task.rule ∈ Registry.fixing)
    (hedits : ∀ l a, task.IsEdit ignoreRules l a → E l a) :
    Amended E t (task.perform ignoreRules t).2 ∧
      ∀ l a, task.IsEdit ignoreRules l a → Settled (task.perform ignoreRules t).2 l a := by
  by_cases hall : ∀ l a, task.IsEdit ignoreRules l a → Settled t l a
  · have hnothing : task.ComesToNothing ignoreRules t := by
      by_cases hany : ∃ l a, task.IsEdit ignoreRules l a
      · obtain ⟨l, a, h⟩ := hany
        exact perform_of_settled hE ht h (hedits l a h) (hall l a h)
      · push Not at hany
        exact perform_of_no_edit ht hrule hany
    rw [hnothing.1]
    exact ⟨.refl, hall⟩
  · push Not at hall
    obtain ⟨l, a, h, hs⟩ := hall
    obtain ⟨s, ha, hw, hperform⟩ := perform_of_not_settled hE ht h (hedits l a h) hs
    have hamended : Amended E t (t.put l (.file s.toUTF8)) := .step .refl (hedits l a h) hw ha
    rw [hperform]
    refine ⟨hamended, fun l' a' h' => ?_⟩
    by_cases hs' : Settled t l' a'
    · exact hamended.settled hE ht (hedits l' a' h') hs'
    · -- the task is this edit, which is done now
      obtain ⟨s', ha', hw', hperform'⟩ := perform_of_not_settled hE ht h' (hedits l' a' h') hs'
      have hput : t.put l (.file s.toUTF8) = t.put l' (.file s'.toUTF8) :=
        congrArg Prod.snd (hperform.symm.trans hperform')
      rw [hput]
      exact hE.settled_put ht (hedits l' a' h') hw' ha'

/-! ## All tasks -/

theorem performAll_cons (task : Task) (rest : List Task) (t : Tree) :
    performAll ignoreRules (task :: rest) t =
      (⟨task, (task.perform ignoreRules t).1⟩ ::
        (performAll ignoreRules rest (task.perform ignoreRules t).2).1,
        (performAll ignoreRules rest (task.perform ignoreRules t).2).2) := rfl

/-- The tree after all tasks is amended by their edits, and every edit is settled in it. -/
theorem performAll_amended (hE : Aimed E t) (ht : t.Ordinary)
    (hrules : ∀ task ∈ tasks, task.rule ∈ Registry.fixing)
    (hedits : ∀ task ∈ tasks, ∀ l a, task.IsEdit ignoreRules l a → E l a) :
    Amended E t (performAll ignoreRules tasks t).2 ∧ ∀ task ∈ tasks, ∀ l a,
      task.IsEdit ignoreRules l a → Settled (performAll ignoreRules tasks t).2 l a := by
  induction tasks generalizing t with
  | nil => exact ⟨.refl, fun _ h => by cases h⟩
  | cons task rest ih =>
    obtain ⟨hrule, hrules⟩ := List.forall_mem_cons.mp hrules
    obtain ⟨hedit, hedits⟩ := List.forall_mem_cons.mp hedits
    obtain ⟨hfirst, hsettled⟩ := perform_amended hE ht hrule hedit
    have hgrown := hfirst.grown hE ht
    have hE' := hE.of_grown hgrown
    obtain ⟨hrest, hsettled'⟩ := ih hE' hgrown.new hrules hedits
    rw [performAll_cons]
    refine ⟨hfirst.trans hrest, List.forall_mem_cons.mpr ⟨fun l a h => ?_, hsettled'⟩⟩
    exact hrest.settled hE' hgrown.new (hedit l a h) (hsettled l a h)

/-- Tasks whose edits are settled come to nothing. -/
theorem performAll_settled (hE : Aimed E t) (ht : t.Ordinary)
    (hrules : ∀ task ∈ tasks, task.rule ∈ Registry.fixing)
    (hedits : ∀ task ∈ tasks, ∀ l a, task.IsEdit ignoreRules l a → E l a ∧ Settled t l a) :
    (performAll ignoreRules tasks t).2 = t ∧
      ∀ attempt ∈ (performAll ignoreRules tasks t).1, attempt.succeeded = false := by
  induction tasks with
  | nil => exact ⟨rfl, fun _ h => by cases h⟩
  | cons task rest ih =>
    obtain ⟨hrule, hrules⟩ := List.forall_mem_cons.mp hrules
    obtain ⟨hedit, hedits⟩ := List.forall_mem_cons.mp hedits
    have hnothing : task.ComesToNothing ignoreRules t := by
      by_cases hany : ∃ l a, task.IsEdit ignoreRules l a
      · obtain ⟨l, a, h⟩ := hany
        exact perform_of_settled hE ht h (hedit l a h).1 (hedit l a h).2
      · push Not at hany
        exact perform_of_no_edit ht hrule hany
    obtain ⟨htree, hattempts⟩ := ih hrules hedits
    rw [performAll_cons, hnothing.1]
    exact ⟨htree, List.forall_mem_cons.mpr ⟨hnothing.2, hattempts⟩⟩

end Checkup.Run
