import Checkup.Proofs.Scan.Exact
import Checkup.Proofs.Scan.Sandbox

/-!
# What found files lead to

A walk goes by what its entries lead to, and asks neither where that is nor whether it is there. Looking
for the same path in the scan root does ask. So a file that is found by way of a link may be missing
when it is looked for: the link leads out of the root, or to nothing.

* `Tree.access_self`, `Tree.access_location`: an access of a location that is there and without links.
* `Context.locate_of_leads`, `Context.fileExists_iff_inside`: what is there at a path that leads somewhere.
* `Context.found_reaches`: where found files lead, and which of them are there.
* `Context.found_outside`: links that lead out and to nothing.
-/

namespace Checkup

namespace Tree

variable {t : Tree} {here l : Location} {steps : List String} {node : Node}

/-- Steps end at a link in a folder that leads to nothing. -/
structure Dangles (t : Tree) (steps : List String) : Prop where
  link : ∃ above name l target, steps = above ++ [name] ∧ t.access above = .ok (l, .folder) ∧
    t.node? (l ++ [name]) = some (.link target)
  missing : t.access steps = .error .missing

/-! ## Accesses of locations -/

/-- Every name of a place to which an access comes has been stepped on. -/
theorem short_of_access (h : t.access steps = .ok (l, node)) : Short l :=
  (find_eq_ok_iff.mp (find_of_access h)).2.short short_nil

/-- What stands at a location without links is accessed there. -/
theorem access_self (ht : t.Founded) (hlinkless : t.Linkless l) (hplain : Plain l) (hfits : Fits l)
    (hnode : t.node? l = some node) : t.access l = .ok (l, node) := by
  induction l using List.reverseRecOn generalizing node with
  | nil =>
    cases hnode
    rfl
  | append_singleton up name ih =>
    have hmem : name ∈ up ++ [name] := List.mem_append_right _ (List.mem_singleton_self name)
    have hfitsUp := hfits.dropLast
    rw [List.dropLast_concat] at hfitsUp
    have hup := ih (hlinkless.of_prefix (List.prefix_append _ _))
      (fun n hn => hplain n (List.mem_append_left _ hn)) hfitsUp (ht hnode)
    have hfind := find_concat hup (hplain name hmem).1 (hplain name hmem).2
      (hlinkless _ (List.prefix_refl _))
    unfold access
    rw [hfind, if_neg (Nat.not_lt.mpr hfits.path), if_neg (Nat.not_lt.mpr (hfits.name name hmem)), hnode]

/-- The location to which an access comes is accessed itself, unless its path is too long. -/
theorem access_location (ht : t.Founded) (haccess : t.access steps = .ok (l, node)) :
    t.access l = if pathBytes l ≤ maxPathBytes then .ok (l, node) else .error .nameTooLong := by
  obtain ⟨⟨n, hleads⟩, hnode⟩ := leads_of_find (find_of_access haccess)
  obtain ⟨hlinkless, hplain⟩ := hleads.linkless (.nil t) plain_nil
  by_cases hbytes : pathBytes l ≤ maxPathBytes
  · rw [if_pos hbytes]
    exact access_self ht hlinkless hplain ⟨hbytes, short_of_access haccess⟩ hnode
  · rw [if_neg hbytes]
    unfold access find
    rw [if_pos (Nat.not_le.mp hbytes)]

/-- An access leads on from where its first steps lead. -/
theorem leads_from_access {mid : Location} {above : Node} {more : List String}
    (habove : t.access steps = .ok (mid, above)) (haccess : t.access (steps ++ more) = .ok (l, node)) :
    ∃ n, Leads t mid more n l := by
  obtain ⟨_, hleadsAbove⟩ := leads_of_access habove
  obtain ⟨_, hleads⟩ := leads_of_access haccess
  obtain ⟨m, k, mid', hfirst, hsecond, -⟩ := hleads.split
  obtain ⟨-, rfl⟩ := hfirst.unique hleadsAbove
  exact ⟨k, hsecond⟩

end Tree

namespace Context

variable {c : Context} {t : Tree} {accepts : String → Bool} {depth : Int} {root l : Location}
  {node : Node} {path : String}

/-! ## Paths that lead somewhere -/

/-- The root is where it is, so a path leads on from there. -/
theorem RootAt.leads (h : c.RootAt t root) {steps : List String} {n : Nat}
    (hleads : Tree.Leads t root steps n l) : Tree.Leads t [] (root ++ steps) (0 + n) l :=
  (h.linkless.leads (Tree.resolveSteps_cases h.resolved).1).append hleads

/-- What a path leads to from a root is located there if it lies in the root. -/
theorem locate_of_leads {above : Node} {target : Location} {n : Nat}
    (hroot : t.access c.root = .ok (root, above)) (hrelative : Path.isAbsolute path = false)
    (hnul : '\x00' ∉ path.toList) (hleads : Tree.Leads t root (Path.steps path) n l) :
    c.locate t path = .ok target ↔ root <+: l ∧ target = l := by
  have hat := rootAt_of_access hroot
  have hresolve : t.resolveSteps (Path.stepsFrom root path) = .ok l := by
    rw [Path.stepsFrom_relative hrelative]
    exact Tree.resolveSteps_of_leads (hat.leads hleads)
  rw [hat.locate_eq_ok, hresolve, and_iff_right hnul]
  constructor
  · rintro ⟨heq, hinside⟩
    cases heq
    exact ⟨hinside, rfl⟩
  · rintro ⟨hinside, rfl⟩
    exact ⟨rfl, hinside⟩

/-- What a path leads to is there in a scan root if it lies in the root and its own path is not too
long. -/
theorem fileExists_iff_inside (ht : t.Founded) (hroot : t.access c.root = .ok (root, .folder))
    (hrelative : Path.isAbsolute path = false) (hnul : '\x00' ∉ path.toList)
    (haccess : t.access (c.root ++ Path.steps path) = .ok (l, node)) :
    c.fileExists t path = true ↔ root <+: l ∧ Tree.pathBytes l ≤ Tree.maxPathBytes := by
  obtain ⟨n, hleads⟩ := Tree.leads_from_access hroot haccess
  unfold fileExists
  cases hlocate : c.locate t path with
  | error fault =>
    refine iff_of_false Bool.false_ne_true fun h => ?_
    have htarget := (locate_of_leads hroot hrelative hnul hleads).mpr ⟨h.1, rfl⟩
    rw [hlocate] at htarget
    cases htarget
  | ok target =>
    obtain ⟨hinside, rfl⟩ := (locate_of_leads hroot hrelative hnul hleads).mp hlocate
    dsimp only
    rw [and_iff_right hinside]
    unfold Tree.exists? Tree.holdsAt
    rw [Tree.access_location ht haccess]
    by_cases hbytes : Tree.pathBytes target ≤ Tree.maxPathBytes
    · rw [if_pos hbytes]
      exact iff_of_true rfl hbytes
    · rw [if_neg hbytes]
      exact iff_of_false Bool.false_ne_true hbytes

/-! ## Found files -/

theorem access_root_of_found (h : path ∈ c.findFilesTo t accepts depth) :
    ∃ root, t.access c.root = .ok (root, .folder) := by
  obtain ⟨name, hname⟩ : ∃ name, name ∈ namesIn t c.root := by
    unfold findFilesTo at h
    generalize (depth + 1).toNat = left at h
    cases mem_walk_iff_comesTo.mp h with
    | take hname => exact ⟨_, hname⟩
    | enter hname => exact ⟨_, hname⟩
  obtain ⟨root, hroot, -⟩ := access_of_mem_namesIn hname
  exact ⟨root, hroot⟩

/-- Where a file that a folder lists leads: to something that is no folder, or to nothing, unless its
path is too long. -/
theorem leads_of_listed (ht : t.Named) {folder : List String} {name : String}
    (h : t.ListsFile folder name) :
    (∃ l node, t.access (folder ++ [name]) = .ok (l, node) ∧ node ≠ .folder) ∨
      t.Dangles (folder ++ [name]) ∨ t.access (folder ++ [name]) = .error .nameTooLong := by
  cases h with
  | @file l bytes hfolder hnode =>
    have hname := ht hnode
    rcases Tree.access_entry hfolder hname.ne_here hname.ne_up hnode (fun _ h => by cases h) with
      haccess | hlong
    · exact .inl ⟨_, _, haccess, fun h => by cases h⟩
    · exact .inr (.inr hlong)
  | link _ _ haccess hfile => exact .inl ⟨_, _, haccess, hfile⟩
  | dangling hfolder hnode haccess => exact .inr (.inl ⟨⟨_, _, _, _, rfl, hfolder, hnode⟩, haccess⟩)

/-- Where the path of a found file leads from a root. -/
inductive Reaches (c : Context) (t : Tree) (root : Location) (path : String) : Prop
  /-- It leads to something that is there in the scan root if it lies in the root, and its own path is
  not too long. -/
  | somewhere {l : Location} {node : Node}
    (haccess : t.access (c.root ++ Path.steps path) = .ok (l, node)) (hfile : node ≠ .folder)
    (hthere : c.fileExists t path = true ↔ root <+: l ∧ Tree.pathBytes l ≤ Tree.maxPathBytes)
  /-- It is a link that leads to nothing. -/
  | nowhere (hdangles : t.Dangles (c.root ++ Path.steps path))
  /-- It is too long. -/
  | tooLong (haccess : t.access (c.root ++ Path.steps path) = .error .nameTooLong)

/-- A found file is there in the scan root, unless it leads out of the root or to nothing, or its path
is too long. -/
theorem found_reaches (ht : t.Named) (hf : t.Founded) (hnul : '\x00' ∉ path.toList)
    (h : path ∈ c.findFilesTo t accepts depth) :
    ∃ root, t.access c.root = .ok (root, .folder) ∧ c.Reaches t root path := by
  obtain ⟨root, hroot⟩ := access_root_of_found h
  obtain ⟨folders, name, rfl, hfinds⟩ := (mem_findFilesTo_iff ht).mp h
  have hnames : ∀ n ∈ folders ++ [name], Path.IsStep n := fun n hn => .of_name (hfinds.isName ht n hn)
  have hrelative := Path.isAbsolute_relative hnames
  have hsteps : c.root ++ Path.steps (Path.relative (folders ++ [name])) =
      c.root ++ folders ++ [name] := by
    rw [Path.steps_relative hnames, List.append_assoc]
  refine ⟨root, hroot, ?_⟩
  rcases leads_of_listed ht hfinds.taken.listed with ⟨l, node, haccess, hfile⟩ | hdangles | hlong
  · rw [← hsteps] at haccess
    exact .somewhere haccess hfile (fileExists_iff_inside hf hroot hrelative hnul haccess)
  · exact .nowhere (hsteps ▸ hdangles)
  · exact .tooLong (hsteps ▸ hlong)

/-! ## Links that lead out and to nothing -/

/-- A root with a file, a link to a file beside the root, and a link to nothing. -/
def linkTree : Tree := ⟨[(["w"], .folder), (["w", "r"], .folder), (["w", "r", "in.ts"], .file "".toUTF8),
  (["w", "r", "out.ts"], .link "../secret.ts"), (["w", "r", "gone.ts"], .link "nowhere.ts"),
  (["w", "secret.ts"], .file "x".toUTF8)]⟩

/-- The root, seen as a scan root. -/
def linkContext : Context := .forRoot ["w", "r"] default false "" []

theorem named_linkTree : linkTree.Named := Tree.named_of_entries (by decide)

theorem founded_linkTree : linkTree.Founded := Tree.founded_of_entries (by decide)

theorem access_linkContext : linkTree.access linkContext.root = .ok (["w", "r"], .folder) := by
  decide +kernel

/-- What the root lists as a file is found. -/
theorem mem_of_listed {name : String} (h : linkTree.ListsFile linkContext.root name) :
    name ∈ linkContext.findFilesTo linkTree (fun _ => true) 6 := by
  refine (mem_findFilesTo_iff named_linkTree).mpr ⟨[], name, rfl, by decide, fun q n hq => ?_, ?_⟩
  · simp at hq
  · exact ⟨h, rfl, rfl⟩

theorem in_mem_linkTree : "in.ts" ∈ linkContext.findFilesTo linkTree (fun _ => true) 6 :=
  mem_of_listed (.file access_linkContext rfl)

theorem found_reaches_linkTree : linkTree.Named ∧ linkTree.Founded ∧ '\x00' ∉ "in.ts".toList ∧
    "in.ts" ∈ linkContext.findFilesTo linkTree (fun _ => true) 6 ∧
    linkContext.fileExists linkTree "in.ts" = true ∧
    ∃ root, linkTree.access linkContext.root = .ok (root, .folder) ∧
      linkContext.Reaches linkTree root "in.ts" :=
  ⟨named_linkTree, founded_linkTree, by decide, in_mem_linkTree, by decide +kernel,
    found_reaches named_linkTree founded_linkTree (by decide) in_mem_linkTree⟩

/-- A link to a file beside the root and a link to nothing are found as files, and are not there. -/
theorem found_outside :
    ("out.ts" ∈ linkContext.findFilesTo linkTree (fun _ => true) 6 ∧
      linkContext.fileExists linkTree "out.ts" = false) ∧
    "gone.ts" ∈ linkContext.findFilesTo linkTree (fun _ => true) 6 ∧
      linkContext.fileExists linkTree "gone.ts" = false := by
  refine ⟨⟨mem_of_listed ?_, by decide +kernel⟩, mem_of_listed ?_, by decide +kernel⟩
  · have hsecret : linkTree.access (linkContext.root ++ ["out.ts"]) =
        .ok (["w", "secret.ts"], .file "x".toUTF8) := by decide +kernel
    exact .link access_linkContext rfl hsecret fun h => by cases h
  · exact .dangling access_linkContext rfl (by decide +kernel)

end Context

end Checkup
