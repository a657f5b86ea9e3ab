import Checkup.Proofs.Tree.LinkedWriting
import Checkup.Proofs.Tree.Steps

/-!
# What is left of a resolved path

A path that is resolved has no links on it any more, unless a link on it leads back to itself: then
the rest of the path is taken as written.

* `resolveSteps_cases`: what a path resolves to.
* `isName_of_access`: the names of a path that can be followed.
-/

namespace Checkup

namespace Tree

variable {t : Tree} {l : Location} {steps : List String}

/-- Resolving the steps meets a loop of links. -/
def Loops (t : Tree) (steps : List String) : Prop :=
  ∃ rest, t.resolveFrom (t.linkCount + 1) [] [] steps = .looping rest

theorem plain_written (rest : List String) :
    Plain (Path.normalSteps true (rest.filter Path.isStep)) := by
  have hhere : "." ∉ rest.filter Path.isStep := fun h =>
    absurd (List.mem_filter.mp h).2 (by decide)
  rw [Path.normalSteps_eq hhere]
  exact plain_lexical plain_nil _

/-- What a path resolves to has plain names, and no links unless there is a loop. -/
theorem resolveSteps_cases (h : t.resolveSteps steps = .ok l) :
    Plain l ∧ (t.Linkless l ∨ t.Loops steps) := by
  unfold resolveSteps at h
  split at h
  · rename_i k hk
    cases h
    obtain ⟨n, hleads⟩ := leads_of_resolveFrom hk
    obtain ⟨hlinkless, hplain⟩ := hleads.linkless (.nil t) plain_nil
    exact ⟨hplain, .inl hlinkless⟩
  · rename_i rest hrest
    dsimp only at h
    split at h
    · cases h
    · cases h
      exact ⟨plain_written rest, .inr ⟨rest, hrest⟩⟩

/-- A path that leads somewhere meets no loop. -/
theorem Leads.not_loops {n : Nat} (h : Leads t [] steps n l) : ¬ t.Loops steps := by
  rintro ⟨rest, hrest⟩
  rw [resolveFrom_of_leads h (.nil t n) rfl] at hrest
  cases hrest

/-- A path that an access can follow meets no loop. -/
theorem not_loops_of_access {node : Node} (h : t.access steps = .ok (l, node)) :
    ¬ t.Loops steps := by
  obtain ⟨n, hleads⟩ := leads_of_access h
  exact hleads.not_loops

/-- No path meets a loop of links. -/
def Loopless (t : Tree) : Prop := ∀ steps, ¬ t.Loops steps

namespace Loopless

theorem leads (h : t.Loopless) (steps : List String) : ∃ n l, Leads t [] steps n l := by
  cases hresolve : t.resolveFrom (t.linkCount + 1) [] [] steps with
  | straight l =>
    obtain ⟨n, hleads⟩ := leads_of_resolveFrom hresolve
    exact ⟨n, l, hleads⟩
  | looping rest => exact absurd ⟨rest, hresolve⟩ (h steps)

theorem linkless (h : t.Loopless) (hresolve : t.resolveSteps steps = .ok l) : t.Linkless l :=
  (resolveSteps_cases hresolve).2.resolve_right (h steps)

/-- Paths in a tree with the same links meet no loops either. -/
theorem of_sameLinks {t' : Tree} (h : t.Loopless) (hlinks : SameLinks t t') : t'.Loopless := by
  intro steps
  obtain ⟨n, l, hleads⟩ := h.leads steps
  exact (hleads.same_links hlinks).not_loops

/-- A path resolves to the same location in a tree with the same links. -/
theorem resolveSteps_eq {t' : Tree} (h : t.Loopless) (hlinks : SameLinks t t')
    (steps : List String) : t'.resolveSteps steps = t.resolveSteps steps := by
  obtain ⟨n, l, hleads⟩ := h.leads steps
  rw [resolveSteps_of_leads hleads, resolveSteps_of_leads (hleads.same_links hlinks)]

end Loopless

namespace Ordinary

theorem founded (h : t.Ordinary) : t.Founded := h.parent

theorem loopless (h : t.Ordinary) : t.Loopless := by
  rintro steps ⟨rest, hrest⟩
  rw [resolveFrom, resolveWith_eq h] at hrest
  cases hrest

end Ordinary

/-- The names of a path that can be followed are proper ones. -/
theorem isName_of_access (ht : t.Named) (hp : Plain steps) {node : Node}
    (h : t.access steps = .ok (l, node)) : ∀ name ∈ steps, IsName name := by
  induction steps using List.reverseRecOn generalizing l node with
  | nil => exact fun name hn => by cases hn
  | append_singleton steps last ih =>
    have hlast := hp last (List.mem_append_right _ (List.mem_singleton_self last))
    obtain ⟨parent, links, hparent, hfollow⟩ := access_dropLast (find_of_access h)
    intro name hn
    rcases List.mem_append.mp hn with hn | hn
    · exact ih (fun n hmem => hp n (List.mem_append_left _ hmem)) hparent name hn
    · rw [List.mem_singleton.mp hn]
      have hthere : t.node? (parent ++ [last]) ≠ none := fun hnone => by
        cases (hfollow.last hlast.1 hlast.2).2 hnone
      obtain ⟨found, hfound⟩ := Option.ne_none_iff_exists'.mp hthere
      exact ht hfound

end Tree

end Checkup
