import Checkup.Proofs.Outcome
import Checkup.Proofs.Tree.Resolution
import Checkup.Service.Locks
import Mathlib.Data.List.Nodup

/-!
# One lock for every root

No root is entered twice among the roots that have locks, and a root keeps its place there. So of all
paths for which locks are given out, one after the other, two have one lock exactly if they come to one
root. A path comes to the location to which it leads, however it is spelled and whether or not something
stands there. Only a path on which a link leads back to itself leads nowhere.

* `Tree.LeadsTo`: where a path leads, and the lemmas that tell it by an access and by resolving.
* `Locks.nodup_forRoot`, `Locks.numbers_of_forPaths`: what giving out one lock and several locks keeps.
* `Locks.one_lock_per_root`: two paths have one lock exactly if they come to one location.
-/

namespace Checkup

namespace Tree

variable {t : Tree} {current : List String} {path : String} {l l' : Location}

/-- A path, taken from a directory, leads to a location. Its `..` goes up from where the path has come
by then, a link goes on at its target, and another name goes down, also where nothing stands. -/
def LeadsTo (t : Tree) (current : List String) (path : String) (l : Location) : Prop :=
  ∃ n, Leads t [] (Path.stepsFrom current path) n l

theorem resolve_eq_ok : t.resolve current path = .ok l ↔
    '\x00' ∉ path.toList ∧ t.resolveSteps (Path.stepsFrom current path) = .ok l := by
  unfold resolve
  split
  · rename_i hnul
    exact iff_of_false (fun h => by cases h) fun h => h.1 hnul
  · rename_i hnul
    exact (and_iff_right hnul).symm

/-- A path resolves to no other location than the one to which it leads. -/
theorem LeadsTo.eq_of_resolve (h : t.LeadsTo current path l)
    (hresolve : t.resolve current path = .ok l') : l' = l := by
  obtain ⟨n, hleads⟩ := h
  have hsteps := (resolve_eq_ok.mp hresolve).2
  rw [resolveSteps_of_leads hleads] at hsteps
  exact (Except.ok.inj hsteps).symm

theorem LeadsTo.of_access {node : Node}
    (h : t.access (Path.stepsFrom current path) = .ok (l, node)) : t.LeadsTo current path l :=
  (leads_of_find (find_of_access h)).1

/-- A path that resolves leads there, or meets a loop of links. -/
theorem leadsTo_or_loops (h : t.resolve current path = .ok l) :
    t.LeadsTo current path l ∨ t.Loops (Path.stepsFrom current path) := by
  have hsteps := (resolve_eq_ok.mp h).2
  cases hresolve : t.resolveFrom (t.linkCount + 1) [] [] (Path.stepsFrom current path) with
  | straight k =>
    rw [resolveSteps, hresolve] at hsteps
    cases hsteps
    exact .inl (leads_of_resolveFrom hresolve)
  | looping rest => exact .inr ⟨rest, hresolve⟩

end Tree

namespace Locks

variable {t : Tree} {current : List String} {locks after : Locks} {path : String} {n : Nat}
  {paths : List String} {numbers : List Nat}

/-- A root is entered once. -/
theorem nodup_forRoot (h : locks.roots.Nodup) (root : Location) :
    (locks.forRoot root).2.roots.Nodup := by
  unfold forRoot
  dsimp only
  split
  · exact h
  · rename_i hnew
    rw [← List.concat_eq_append]
    exact h.concat fun hmem => hnew (List.contains_iff_mem.mpr hmem)

theorem forPath_eq_ok : locks.forPath t current path = .ok (n, after) ↔
    ∃ root, t.resolve current path = .ok root ∧ locks.forRoot root = (n, after) := by
  unfold forPath
  cases t.resolve current path with
  | error fault => exact iff_of_false (fun h => by cases h) fun ⟨_, h, _⟩ => by cases h
  | ok root => simp [Except.map]

/-- Locks are given out for all paths if all of them resolve. -/
theorem forPaths_returns (h : ∀ path ∈ paths, (t.resolve current path).Returns) :
    (forPaths t current locks paths).Returns := by
  induction paths generalizing locks with
  | nil => exact ⟨[], rfl⟩
  | cons path rest ih =>
    obtain ⟨⟨root, hroot⟩, hrest⟩ := List.forall_mem_cons.mp h
    refine Except.returns_bind.mpr ⟨_, forPath_eq_ok.mpr ⟨root, hroot, rfl⟩, ?_⟩
    obtain ⟨later, hlater⟩ := ih hrest
    exact Except.returns_bind.mpr ⟨later, hlater, _, rfl⟩

/-- In the end the root of every path has the place that is the number of its lock. Roots that had
locks before keep their places. -/
theorem numbers_of_forPaths (hnodup : locks.roots.Nodup)
    (h : forPaths t current locks paths = .ok numbers) :
    ∃ final : Locks, locks.roots <+: final.roots ∧ final.roots.Nodup ∧
      List.Forall₂ (fun path n => ∃ root, t.resolve current path = .ok root ∧
        final.roots[n]? = some root) paths numbers := by
  induction paths generalizing locks numbers with
  | nil =>
    cases h
    exact ⟨locks, List.prefix_refl _, hnodup, .nil⟩
  | cons path rest ih =>
    obtain ⟨⟨n, after⟩, hpath, hlater⟩ := Except.bind_eq_ok.mp h
    obtain ⟨later, hrest, heq⟩ := Except.bind_eq_ok.mp hlater
    cases heq
    obtain ⟨root, hroot, hforRoot⟩ := forPath_eq_ok.mp hpath
    have hnodup' : after.roots.Nodup := by
      have := nodup_forRoot hnodup root
      rwa [hforRoot] at this
    obtain ⟨final, hprefix, hfinal, hall⟩ := ih hnodup' hrest
    refine ⟨final, (prefix_of_forPath hpath).trans hprefix, hfinal, .cons ⟨root, hroot, ?_⟩ hall⟩
    have hplace : after.roots[n]? = some root := by
      have := getElem?_forRoot locks root
      rwa [hforRoot] at this
    obtain ⟨more, hmore⟩ := hprefix
    rw [← hmore, List.getElem?_append_left (List.getElem?_eq_some_iff.mp hplace).1, hplace]

/-- Locks are given out for paths that resolve, one after the other. Two of the calls have one lock if
and only if their paths resolve to the same location, whatever calls are made between them. A path that
leads somewhere resolves to where it leads, and so every path without a loop of links does and every
path that can be followed. -/
theorem one_lock_per_root (h : ∀ path ∈ paths, (t.resolve current path).Returns) :
    ∃ numbers, forPaths t current empty paths = .ok numbers ∧ numbers.length = paths.length ∧
      ∀ p n q m, (p, n) ∈ paths.zip numbers → (q, m) ∈ paths.zip numbers →
        (n = m ↔ t.resolve current p = t.resolve current q) ∧
        (∀ l l', t.LeadsTo current p l → t.LeadsTo current q l' → (n = m ↔ l = l')) ∧
        (¬ t.Loops (Path.stepsFrom current p) → ∃ l, t.LeadsTo current p l) ∧
        ∀ l node, t.access (Path.stepsFrom current p) = .ok (l, node) → t.LeadsTo current p l := by
  obtain ⟨numbers, hnumbers⟩ : (forPaths t current empty paths).Returns := forPaths_returns h
  have hempty : empty.roots.Nodup := List.nodup_nil
  obtain ⟨final, -, hnodup, hall⟩ := numbers_of_forPaths hempty hnumbers
  obtain ⟨hlength, hcalls⟩ := List.forall₂_iff_zip.mp hall
  refine ⟨numbers, hnumbers, hlength.symm, fun p n q m hp hq => ?_⟩
  obtain ⟨root, hroot, hplace⟩ := hcalls hp
  obtain ⟨root', hroot', hplace'⟩ := hcalls hq
  have hnumber : n = m ↔ root = root' := by
    constructor
    · rintro rfl
      rw [hplace] at hplace'
      exact Option.some.inj hplace'
    · rintro rfl
      obtain ⟨hlt, -⟩ := List.getElem?_eq_some_iff.mp hplace
      exact (List.getElem?_inj hlt hnodup).mp (hplace.trans hplace'.symm)
  refine ⟨?_, fun l l' hl hl' => ?_, fun hloops => ?_, fun l node hl => .of_access hl⟩
  · rw [hroot, hroot', Except.ok.injEq, hnumber]
  · rw [hnumber, hl.eq_of_resolve hroot, hl'.eq_of_resolve hroot']
  · exact ⟨root, (Tree.leadsTo_or_loops hroot).resolve_right hloops⟩

/-! ## Spellings of one directory -/

/-- A project, another directory, and links to both. -/
def linkedTree : Tree := ⟨[(["w"], .folder), (["w", "repo"], .folder), (["w", "other"], .folder),
  (["w", "to"], .link "repo"), (["w", "repo", "up"], .link "../other/")]⟩

/-- Four spellings of the project, and two of the other directory with a free place in it. -/
def spellings : List String :=
  ["repo", "/w/other/../repo/.", "to/", "repo/up/../missing/../to", "other/new", "to/up/new"]

theorem one_lock_per_root_spellings :
    (∀ path ∈ spellings, (linkedTree.resolve ["w"] path).Returns) ∧
    ∃ numbers, forPaths linkedTree ["w"] empty spellings = .ok numbers ∧
      numbers = [0, 0, 0, 0, 1, 1] ∧
      (linkedTree.resolve ["w"] "to/" = linkedTree.resolve ["w"] "repo" ∧
        linkedTree.resolve ["w"] "to/" ≠ linkedTree.resolve ["w"] "to/up/new") := by
  have h : ∀ path ∈ spellings, (linkedTree.resolve ["w"] path).Returns := by
    have hroots : spellings.map (linkedTree.resolve ["w"]) =
        [["w", "repo"], ["w", "repo"], ["w", "repo"], ["w", "repo"], ["w", "other", "new"],
          ["w", "other", "new"]].map .ok := by decide +kernel
    intro path hpath
    obtain ⟨root, -, hroot⟩ := List.mem_map.mp (hroots ▸ List.mem_map_of_mem hpath)
    exact ⟨root, hroot.symm⟩
  obtain ⟨numbers, hnumbers, -, hcalls⟩ := one_lock_per_root h
  have heq : forPaths linkedTree ["w"] empty spellings = .ok [0, 0, 0, 0, 1, 1] := by decide +kernel
  obtain rfl : [0, 0, 0, 0, 1, 1] = numbers := Except.ok.inj (heq.symm.trans hnumbers)
  exact ⟨h, _, hnumbers, rfl,
    (hcalls "to/" 0 "repo" 0 (by decide) (by decide)).1.mp rfl,
    fun hsame => absurd ((hcalls "to/" 0 "to/up/new" 1 (by decide) (by decide)).1.mpr hsame) (by decide)⟩

end Locks

end Checkup
