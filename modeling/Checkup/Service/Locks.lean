import Checkup.Tree.Resolve

/-!
# Locks on project roots

There is one lock for every root, however its path is spelled, so fixing runs on one project never
overlap. A lock is known by its number: the place of its root in the order of first use.

* `number_of_forPath`: a lock's number is the place of the root that the path comes to.
* `prefix_of_forPath`: locks that have been given out keep their numbers.
-/

namespace Checkup

/-- The roots that have locks, in the order of first use. -/
structure Locks where
  roots : List Location
  deriving DecidableEq, Repr, Inhabited

namespace Locks

/-- No lock has been given out. -/
def empty : Locks := ⟨[]⟩

/-- The number of the lock for a root, with the locks given out after that. -/
def forRoot (locks : Locks) (root : Location) : Nat × Locks :=
  (locks.roots.idxOf root,
    if locks.roots.contains root then locks else ⟨locks.roots ++ [root]⟩)

/-- The number of the lock for the root at a path. -/
def forPath (locks : Locks) (t : Tree) (current : List String) (path : String) :
    Except Fault (Nat × Locks) :=
  (t.resolve current path).map locks.forRoot

/-- The numbers of the locks for several paths, one after the other. -/
def forPaths (t : Tree) (current : List String) : Locks → List String → Except Fault (List Nat)
  | _, [] => .ok []
  | locks, path :: rest => do
    let (number, locks) ← locks.forPath t current path
    let later ← forPaths t current locks rest
    pure (number :: later)

theorem roots_prefix_forRoot (locks : Locks) (root : Location) :
    locks.roots <+: (locks.forRoot root).2.roots := by
  simp only [forRoot]
  split
  · exact List.prefix_refl _
  · exact List.prefix_append _ _

theorem getElem?_forRoot (locks : Locks) (root : Location) :
    (locks.forRoot root).2.roots[(locks.forRoot root).1]? = some root := by
  simp only [forRoot]
  split
  · rename_i h
    have hm : root ∈ locks.roots := List.contains_iff_mem.mp h
    simp [List.getElem?_eq_getElem (List.idxOf_lt_length_of_mem hm)]
  · rename_i h
    have hm : root ∉ locks.roots := fun hm => h (List.contains_iff_mem.mpr hm)
    simp [List.idxOf_eq_length hm]

theorem number_of_forPath {locks after : Locks} {t : Tree} {current : List String} {path : String}
    {number : Nat} (h : locks.forPath t current path = .ok (number, after)) :
    ∃ root, t.resolve current path = .ok root ∧ after.roots[number]? = some root := by
  simp only [forPath] at h
  cases hr : t.resolve current path with
  | error fault => simp [hr, Except.map] at h
  | ok root =>
    simp only [hr, Except.map, Except.ok.injEq] at h
    refine ⟨root, rfl, ?_⟩
    have := getElem?_forRoot locks root
    rw [h] at this
    exact this

theorem prefix_of_forPath {locks after : Locks} {t : Tree} {current : List String} {path : String}
    {number : Nat} (h : locks.forPath t current path = .ok (number, after)) :
    locks.roots <+: after.roots := by
  simp only [forPath] at h
  cases hr : t.resolve current path with
  | error fault => simp [hr, Except.map] at h
  | ok root =>
    simp only [hr, Except.map, Except.ok.injEq] at h
    have := roots_prefix_forRoot locks root
    rw [h] at this
    exact this

end Locks

end Checkup
