import Checkup.Proofs.Tree.Ordinary
import Mathlib.Data.List.Perm.Subperm

/-!
# Trees with links

Where a path leads in a tree with links. A derivation of it counts the links on the way. A path that
an access can follow has one, and then resolving the path comes to the same location: a link that is
being resolved is not met again, since that would take more links than there are on the way. An access to
an entry of a folder goes on where the access to the folder ends.

* `Leads.unique`: a path leads to one location.
* `leads_of_find`: where an access ends.
* `resolveSteps_of_find`: a path that can be followed resolves to where it ends.
* `leads_of_resolveFrom`, `Leads.linkless`: without a loop, a path leads to where it is resolved to, and
  no link is left there.
* `find_concat`, `access_entry`: where an entry that is no link is found.
-/

namespace Checkup.Tree

variable {t : Tree} {here mid l : Location} {steps : List String} {n : Nat}

/-- Steps lead from a location to another one, by way of some number of links. -/
inductive Leads (t : Tree) : Location → List String → Nat → Location → Prop
  | stay (here : Location) : Leads t here [] 0 here
  | here {here l : Location} {name : String} {rest : List String} {n : Nat} (hname : name = ".")
    (h : Leads t here rest n l) : Leads t here (name :: rest) n l
  | up {here l : Location} {name : String} {rest : List String} {n : Nat} (hname : name = "..")
    (h : Leads t here.dropLast rest n l) : Leads t here (name :: rest) n l
  | down {here l : Location} {name : String} {rest : List String} {n : Nat} (h1 : name ≠ ".")
    (h2 : name ≠ "..") (hnode : ∀ target, t.node? (here ++ [name]) ≠ some (.link target))
    (h : Leads t (here ++ [name]) rest n l) : Leads t here (name :: rest) n l
  | link {here mid l : Location} {name target : String} {rest : List String} {m n : Nat}
    (h1 : name ≠ ".") (h2 : name ≠ "..") (hnode : t.node? (here ++ [name]) = some (.link target))
    (hlink : Leads t (linkStart here target) (Path.linkSteps target) m mid)
    (h : Leads t mid rest n l) : Leads t here (name :: rest) (m + n + 1) l

namespace Leads

/-- A path leads to one location, by way of the same links. -/
theorem unique {n' : Nat} {l' : Location} (h : Leads t here steps n l)
    (h' : Leads t here steps n' l') : n = n' ∧ l = l' := by
  induction h generalizing n' l' with
  | stay =>
    cases h'
    exact ⟨rfl, rfl⟩
  | here hname _ ih =>
    subst hname
    cases h' with
    | here _ h' => exact ih h'
    | up hname => exact absurd hname (by decide)
    | down h1 => exact absurd rfl h1
    | link h1 => exact absurd rfl h1
  | up hname _ ih =>
    subst hname
    cases h' with
    | here hname => exact absurd hname (by decide)
    | up _ h' => exact ih h'
    | down _ h2 => exact absurd rfl h2
    | link _ h2 => exact absurd rfl h2
  | down h1 h2 hnode _ ih =>
    cases h' with
    | here hname => exact absurd hname h1
    | up hname => exact absurd hname h2
    | down _ _ _ h' => exact ih h'
    | link _ _ hlink => exact absurd hlink (hnode _)
  | link h1 h2 hnode _ _ ihlink ih =>
    cases h' with
    | here hname => exact absurd hname h1
    | up hname => exact absurd hname h2
    | down _ _ hnone => exact absurd hnode (hnone _)
    | link _ _ hnode' hlink' h' =>
      rw [hnode] at hnode'
      cases hnode'
      obtain ⟨rfl, rfl⟩ := ihlink hlink'
      obtain ⟨rfl, rfl⟩ := ih h'
      exact ⟨rfl, rfl⟩

/-- A path leads through the end of its first part. -/
theorem split {first second : List String} (h : Leads t here (first ++ second) n l) :
    ∃ m k mid, Leads t here first m mid ∧ Leads t mid second k l ∧ n = m + k := by
  induction first generalizing here n with
  | nil => exact ⟨0, n, here, .stay here, h, (Nat.zero_add n).symm⟩
  | cons name rest ih =>
    rw [List.cons_append] at h
    cases h with
    | here hname h =>
      obtain ⟨m, k, mid, h1, h2, hn⟩ := ih h
      exact ⟨m, k, mid, .here hname h1, h2, hn⟩
    | up hname h =>
      obtain ⟨m, k, mid, h1, h2, hn⟩ := ih h
      exact ⟨m, k, mid, .up hname h1, h2, hn⟩
    | down hn1 hn2 hnode h =>
      obtain ⟨m, k, mid, h1, h2, hn⟩ := ih h
      exact ⟨m, k, mid, .down hn1 hn2 hnode h1, h2, hn⟩
    | link hn1 hn2 hnode hlink h =>
      obtain ⟨m, k, mid, h1, h2, rfl⟩ := ih h
      exact ⟨_, k, mid, .link hn1 hn2 hnode hlink h1, h2, by omega⟩

/-- One path leads on from where another one ends. -/
theorem append {first second : List String} {m : Nat} (h : Leads t here first m mid)
    (h' : Leads t mid second n l) : Leads t here (first ++ second) (m + n) l := by
  induction h with
  | stay => rwa [List.nil_append, Nat.zero_add]
  | here hname _ ih => exact .here hname (ih h')
  | up hname _ ih => exact .up hname (ih h')
  | down h1 h2 hnode _ ih => exact .down h1 h2 hnode (ih h')
  | link h1 h2 hnode hlink _ _ ih =>
    rw [Nat.add_right_comm, Nat.add_assoc _ _ n]
    exact .link h1 h2 hnode hlink (ih h')

/-- Where a path leads depends on the links in the tree only. -/
theorem same_links {t' : Tree} (hlinks : ∀ k target, t'.node? k = some (.link target) ↔
    t.node? k = some (.link target)) (h : Leads t here steps n l) : Leads t' here steps n l := by
  induction h with
  | stay here => exact .stay here
  | here hname _ ih => exact .here hname ih
  | up hname _ ih => exact .up hname ih
  | down h1 h2 hnode _ ih => exact .down h1 h2 (fun target => (hlinks _ _).not.mpr (hnode target)) ih
  | link h1 h2 hnode _ _ ihlink ih => exact .link h1 h2 ((hlinks _ _).mpr hnode) ihlink ih

end Leads

/-! ## Paths without links -/

/-- No link stands at a location nor on the way to it. -/
def Linkless (t : Tree) (l : Location) : Prop :=
  ∀ q, q <+: l → ∀ target, t.node? q ≠ some (.link target)

namespace Linkless

theorem nil (t : Tree) : t.Linkless [] := by
  intro q hq target hlink
  rw [List.prefix_nil.mp hq] at hlink
  cases hlink

theorem of_prefix {q : Location} (h : t.Linkless l) (hq : q <+: l) : t.Linkless q :=
  fun k hk => h k (hk.trans hq)

theorem dropLast (h : t.Linkless l) : t.Linkless l.dropLast := h.of_prefix (List.dropLast_prefix l)

theorem concat {name : String} (h : t.Linkless l)
    (hn : ∀ target, t.node? (l ++ [name]) ≠ some (.link target)) : t.Linkless (l ++ [name]) := by
  intro q hq
  rcases List.prefix_concat_iff.mp hq with rfl | hq
  · exact hn
  · exact h q hq

end Linkless

/-- Without links on the way a plain path leads to where it is written. -/
theorem leads_eq (h : ∀ q, q <+: steps → ∀ target, t.node? (here ++ q) ≠ some (.link target))
    (hp : Plain steps) (hl : Leads t here steps n l) : l = here ++ steps := by
  induction steps generalizing here n with
  | nil =>
    cases hl
    rw [List.append_nil]
  | cons name rest ih =>
    obtain ⟨⟨h1, h2⟩, hrest⟩ := List.forall_mem_cons.mp hp
    cases hl with
    | here hname => exact absurd hname h1
    | up hname => exact absurd hname h2
    | down _ _ _ hl =>
      rw [List.append_cons]
      refine ih (fun q hq => ?_) hrest hl
      rw [← List.append_cons]
      exact h (name :: q) (List.cons_prefix_cons.mpr ⟨rfl, hq⟩)
    | link _ _ hnode => exact absurd hnode (h [name] (List.cons_prefix_cons.mpr ⟨rfl, List.nil_prefix⟩) _)

theorem Linkless.leads_eq (h : t.Linkless l) (hp : Plain l) {k : Location} (hl : Leads t [] l n k) :
    k = l := Tree.leads_eq (fun q hq => h q hq) hp hl

/-- A plain path without links leads to where it is written. -/
theorem Linkless.leads (h : t.Linkless l) (hp : Plain l) : Leads t [] l 0 l := by
  induction l using List.reverseRecOn with
  | nil => exact .stay []
  | append_singleton l last ih =>
    have hlast := hp last (List.mem_append_right _ (List.mem_singleton_self last))
    have hup := ih (h.of_prefix (List.prefix_append _ _)) fun n hn => hp n (List.mem_append_left _ hn)
    exact hup.append (.down hlast.1 hlast.2 (h _ (List.prefix_refl _)) (.stay _))

theorem linkless_linkStart (h : t.Linkless here) (target : String) :
    t.Linkless (linkStart here target) := by
  unfold linkStart
  split
  · exact .nil t
  · exact h

theorem plain_linkStart (h : Plain here) (target : String) : Plain (linkStart here target) := by
  unfold linkStart
  split
  · exact plain_nil
  · exact h

theorem Plain.concat {name : String} (h : Plain l) (h1 : name ≠ ".") (h2 : name ≠ "..") :
    Plain (l ++ [name]) :=
  h.append fun other hn => by rw [List.mem_singleton.mp hn]; exact ⟨h1, h2⟩

/-- No link is left where a path leads. -/
theorem Leads.linkless (h : Leads t here steps n l) (hlinkless : t.Linkless here)
    (hplain : Plain here) : t.Linkless l ∧ Plain l := by
  induction h with
  | stay => exact ⟨hlinkless, hplain⟩
  | here _ _ ih => exact ih hlinkless hplain
  | up _ _ ih => exact ih hlinkless.dropLast hplain.dropLast
  | down h1 h2 hnode _ ih => exact ih (hlinkless.concat hnode) (hplain.concat h1 h2)
  | link _ _ _ _ _ ihlink ih =>
    have hmid := ihlink (linkless_linkStart hlinkless _) (plain_linkStart hplain _)
    exact ih hmid.1 hmid.2

/-! ## What an access follows -/

/-- Where the steps of an access lead. -/
theorem Follows.leads {links : Nat} {place : Place} (h : Follows t links here steps place) :
    (∃ n, Leads t here steps n place.location) ∧ place.Stands t := by
  induction h with
  | @stop links here node hnode => exact ⟨⟨0, .stay here⟩, hnode⟩
  | here _ hname _ ih => exact ih.imp_left fun ⟨n, hl⟩ => ⟨n, .here hname hl⟩
  | up _ hname _ ih => exact ih.imp_left fun ⟨n, hl⟩ => ⟨n, .up hname hl⟩
  | free _ hname hnone =>
    refine ⟨⟨0, .down hname.ne_here hname.ne_up (fun target hlink => ?_) (.stay _)⟩, hnone⟩
    rw [hnone] at hlink
    cases hlink
  | link _ hname hlink _ ih =>
    obtain ⟨⟨n, hl⟩, hstands⟩ := ih
    obtain ⟨m, k, mid, htarget, hrest, -⟩ := hl.split
    exact ⟨⟨_, .link hname.ne_here hname.ne_up hlink htarget hrest⟩, hstands⟩
  | down _ hname hnode hnot _ ih =>
    obtain ⟨⟨n, hl⟩, hstands⟩ := ih
    refine ⟨⟨n, .down hname.ne_here hname.ne_up (fun target hlink => ?_) hl⟩, hstands⟩
    rw [hnode] at hlink
    exact hnot target (Option.some.inj hlink)

/-- Where an access ends. -/
theorem leads_of_find {place : Place} (h : t.find steps = .ok place) :
    (∃ n, Leads t [] steps n place.location) ∧ place.Stands t :=
  (find_eq_ok_iff.mp h).2.leads

/-- An access that comes to a node. -/
theorem find_of_access {node : Node} (h : t.access steps = .ok (l, node)) :
    t.find steps = .ok (.present l node) := by
  unfold access at h
  split at h
  · rename_i hfind
    cases h
    exact hfind
  · cases h
  · cases h

theorem access_of_exists (h : (t.exists? steps).toOption.getD false = true) :
    ∃ l node, t.access steps = .ok (l, node) := by
  unfold exists? holdsAt at h
  split at h
  · rename_i l node haccess
    exact ⟨l, node, haccess⟩
  · split at h
    · cases h
    · cases h

theorem access_of_isFolder (h : t.isFolder? steps = .ok true) :
    ∃ l, t.access steps = .ok (l, .folder) := by
  unfold isFolder? holdsAt at h
  split at h
  · rename_i l node haccess
    obtain rfl : node = .folder := decide_eq_true_eq.mp (Except.ok.inj h)
    exact ⟨l, haccess⟩
  · split at h
    · cases h
    · cases h

/-- A text is read from the file that an access comes to. -/
theorem access_of_readText {text : String} (h : t.readText steps = .ok text) :
    ∃ l bytes, t.access steps = .ok (l, .file bytes) ∧ decodeText bytes = .ok text := by
  unfold readText readBytes at h
  split at h
  · rename_i l bytes haccess
    exact ⟨l, bytes, haccess, h⟩
  all_goals cases h

/-- Without links on the way an access ends where the path is written. -/
theorem location_of_find (hl : t.Linkless l) (hp : Plain l) {place : Place}
    (h : t.find l = .ok place) : place.location = l := by
  obtain ⟨⟨n, hleads⟩, -⟩ := leads_of_find h
  exact hl.leads_eq hp hleads

/-! ## What a path resolves to -/

theorem linkCount_eq (t : Tree) :
    t.linkCount = (t.entries.filter fun entry => isLink entry.2).length := by
  unfold linkCount
  refine congrArg List.length (List.filter_congr fun entry _ => ?_)
  cases entry.2 with
  | link target => rfl
  | _ => rfl

/-- The number of distinct links in a tree. -/
theorem length_le_linkCount {links : List Location} (hnodup : links.Nodup)
    (hlinks : ∀ k ∈ links, ∃ target, t.node? k = some (.link target)) :
    links.length ≤ t.linkCount := by
  have hsub : links ⊆ (t.entries.filter fun entry => isLink entry.2).map (·.1) := by
    intro k hk
    obtain ⟨target, hnode⟩ := hlinks k hk
    have hne : k ≠ [] := by
      rintro rfl
      cases hnode
    unfold node? at hnode
    rw [if_neg hne] at hnode
    obtain ⟨first, rest, hlist, -⟩ := List.lookup_eq_some_iff.mp hnode
    refine List.mem_map.mpr ⟨(k, .link target), List.mem_filter.mpr ⟨?_, rfl⟩, rfl⟩
    rw [hlist]
    exact List.mem_append_right first (List.mem_cons_self ..)
  have hlength := (hnodup.subperm hsub).length_le
  rwa [List.length_map, ← linkCount_eq] at hlength

/-- The links that are being resolved: each needs at least as many links as are on the way. -/
structure Pending (t : Tree) (pending : List Location) (n : Nat) : Prop where
  nodup : pending.Nodup
  links : ∀ k ∈ pending, ∃ target, t.node? k = some (.link target)
  cost : ∀ k ∈ pending, ∀ {target m mid}, t.node? k = some (.link target) →
    Leads t (linkStart k.dropLast target) (Path.linkSteps target) m mid → n ≤ m

namespace Pending

theorem nil (t : Tree) (n : Nat) : Pending t [] n :=
  ⟨List.nodup_nil, fun _ h => (by cases h), fun _ h => by cases h⟩

theorem of_le {pending : List Location} {m : Nat} (h : Pending t pending n) (hle : m ≤ n) :
    Pending t pending m :=
  ⟨h.nodup, h.links, fun k hk _ _ _ hnode hl => Nat.le_trans hle (h.cost k hk hnode hl)⟩

/-- A link on the way is none of those that are being resolved, and then it is one of them. -/
theorem cons {pending : List Location} {name target : String} {m k : Nat}
    (h : Pending t pending (m + k + 1)) (hnode : t.node? (here ++ [name]) = some (.link target))
    (hlink : Leads t (linkStart here target) (Path.linkSteps target) m mid) :
    here ++ [name] ∉ pending ∧ Pending t ((here ++ [name]) :: pending) m := by
  have hlink' : Leads t (linkStart (here ++ [name]).dropLast target) (Path.linkSteps target) m mid := by
    rw [List.dropLast_concat]
    exact hlink
  have hnot : here ++ [name] ∉ pending := by
    intro hmem
    have hle := h.cost _ hmem hnode hlink'
    omega
  refine ⟨hnot, List.nodup_cons.mpr ⟨hnot, h.nodup⟩,
    List.forall_mem_cons.mpr ⟨⟨target, hnode⟩, h.links⟩, List.forall_mem_cons.mpr ⟨?_, ?_⟩⟩
  · intro target' m' mid' hnode' hl
    rw [hnode] at hnode'
    cases hnode'
    exact Nat.le_of_eq (hlink'.unique hl).1
  · intro k hk target' m' mid' hnode' hl
    have hle := h.cost k hk hnode' hl
    omega

end Pending

/-- A path with a derivation resolves without a loop. -/
theorem resolveFrom_of_leads {fuel : Nat} {pending : List Location} (h : Leads t here steps n l)
    (hpending : Pending t pending n) (hfuel : fuel + pending.length = t.linkCount + 1) :
    t.resolveFrom fuel pending here steps = .straight l := by
  induction h generalizing fuel pending with
  | stay => cases fuel <;> rfl
  | here hname _ ih =>
    subst hname
    have hrest := ih hpending hfuel
    cases fuel with
    | zero => exact hrest
    | succ fuel => exact hrest
  | up hname _ ih =>
    subst hname
    have hrest := ih hpending hfuel
    cases fuel with
    | zero => exact hrest
    | succ fuel => exact hrest
  | @down here l name rest n h1 h2 hnode _ ih =>
    have hrest := ih hpending hfuel
    have hstep : ∀ expand, t.resolveWith expand here (name :: rest) =
        t.resolveWith expand (here ++ [name]) rest := by
      intro expand
      rw [resolveWith, if_neg h1, if_neg h2]
      split
      · rename_i target hlink
        exact absurd hlink (hnode target)
      · rfl
    cases fuel with
    | zero => exact (hstep _).trans hrest
    | succ fuel => exact (hstep _).trans hrest
  | @link here mid l name target rest m k h1 h2 hnode hlink _ ihlink ih =>
    obtain ⟨hnot, hmore⟩ := hpending.cons hnode hlink
    have hlength := length_le_linkCount hmore.nodup hmore.links
    rw [List.length_cons] at hlength
    obtain ⟨fuel, rfl⟩ : ∃ f, fuel = f + 1 := ⟨fuel - 1, by omega⟩
    have hfuel' : fuel + ((here ++ [name]) :: pending).length = t.linkCount + 1 := by
      rw [List.length_cons]
      omega
    have hexpand := ihlink hmore hfuel'
    have hrest := ih (hpending.of_le (by omega)) hfuel
    rw [resolveFrom, resolveWith, if_neg h1, if_neg h2, hnode]
    dsimp only
    rw [if_neg hnot, List.dropLast_concat, hexpand]
    exact hrest

theorem resolveSteps_of_leads (h : Leads t [] steps n l) : t.resolveSteps steps = .ok l := by
  rw [resolveSteps, resolveFrom_of_leads h (.nil t n) rfl]

/-- A path that an access can follow resolves to where the access ends. -/
theorem resolveSteps_of_find {place : Place} (h : t.find steps = .ok place) :
    t.resolveSteps steps = .ok place.location := by
  obtain ⟨⟨n, hleads⟩, -⟩ := leads_of_find h
  exact resolveSteps_of_leads hleads

theorem leads_of_resolveWith {expand : Location → String → Resolved}
    (hexpand : ∀ {folder name target k}, t.node? (folder ++ [name]) = some (.link target) →
      expand (folder ++ [name]) target = .straight k →
      ∃ n, Leads t (linkStart folder target) (Path.linkSteps target) n k)
    (h : t.resolveWith expand here steps = .straight l) : ∃ n, Leads t here steps n l := by
  induction steps generalizing here with
  | nil =>
    cases h
    exact ⟨0, .stay _⟩
  | cons name rest ih =>
    rw [resolveWith] at h
    split at h
    · rename_i h1
      obtain ⟨n, hleads⟩ := ih h
      exact ⟨n, .here h1 hleads⟩
    · rename_i h1
      split at h
      · rename_i h2
        obtain ⟨n, hleads⟩ := ih h
        exact ⟨n, .up h2 hleads⟩
      · rename_i h2
        split at h
        · rename_i target hnode
          split at h
          · rename_i k hk
            obtain ⟨m, hlink⟩ := hexpand hnode hk
            obtain ⟨n, hleads⟩ := ih h
            exact ⟨m + n + 1, .link h1 h2 hnode hlink hleads⟩
          · cases h
        · rename_i hnode
          obtain ⟨n, hleads⟩ := ih h
          exact ⟨n, .down h1 h2 hnode hleads⟩

/-- A path that is resolved without a loop leads to where it is resolved to. -/
theorem leads_of_resolveFrom {fuel : Nat} {pending : List Location}
    (h : t.resolveFrom fuel pending here steps = .straight l) : ∃ n, Leads t here steps n l := by
  induction fuel generalizing pending here steps l with
  | zero =>
    refine leads_of_resolveWith (fun _ h => ?_) h
    cases h
  | succ fuel ih =>
    refine leads_of_resolveWith (fun _ h => ?_) h
    split at h
    · cases h
    · rw [List.dropLast_concat] at h
      exact ih h

/-! ## Entries of folders -/

section Entries

variable {node : Node} {name : String}
  {onLink : Location → String → List String → Except Fault Place}

/-- Where the step to an entry that is no link ends. -/
theorem walk_entry (hfolder : t.node? l = some .folder) (h1 : name ≠ ".") (h2 : name ≠ "..")
    (hlink : ∀ target, t.node? (l ++ [name]) ≠ some (.link target)) : t.walk onLink l [name] =
      if maxNameBytes < name.utf8ByteSize then .error .nameTooLong
      else
        match t.node? (l ++ [name]) with
        | some node => .ok (.present (l ++ [name]) node)
        | none => .ok (.vacant (l ++ [name])) := by
  rw [walk_name hfolder h1 h2]
  cases hnode : t.node? (l ++ [name]) with
  | none => rfl
  | some node =>
    cases node with
    | link target => exact absurd hnode (hlink target)
    | folder =>
      dsimp only
      rw [walk, hnode]
    | file bytes =>
      dsimp only
      rw [walk, hnode]

/-- An entry of a folder that is no link is found where the folder is found, unless its path is too
long. -/
theorem find_concat (haccess : t.access steps = .ok (l, .folder)) (h1 : name ≠ ".")
    (h2 : name ≠ "..") (hlink : ∀ target, t.node? (l ++ [name]) ≠ some (.link target)) :
    t.find (steps ++ [name]) =
      if maxPathBytes < pathBytes (steps ++ [name]) then .error .nameTooLong
      else if maxNameBytes < name.utf8ByteSize then .error .nameTooLong
      else
        match t.node? (l ++ [name]) with
        | some node => .ok (.present (l ++ [name]) node)
        | none => .ok (.vacant (l ++ [name])) := by
  have hfind := find_of_access haccess
  have hfolder : t.node? l = some .folder := (leads_of_find hfind).2
  obtain ⟨left, hleft⟩ := (find_eq_ok_iff.mp hfind).2.append rfl [name]
  obtain ⟨onLink, hwalk⟩ := exists_follow_eq_walk t left
  rw [find, hleft, hwalk, walk_entry hfolder h1 h2 hlink]

/-- An access to an entry that is no link comes to it, unless its path is too long. -/
theorem access_entry (haccess : t.access steps = .ok (l, .folder)) (h1 : name ≠ ".")
    (h2 : name ≠ "..") (hnode : t.node? (l ++ [name]) = some node)
    (hlink : ∀ target, node ≠ .link target) :
    t.access (steps ++ [name]) = .ok (l ++ [name], node) ∨
      t.access (steps ++ [name]) = .error .nameTooLong := by
  have hfind := find_concat haccess h1 h2 fun target h => hlink target (by simpa [hnode] using h)
  unfold access
  rw [hfind, hnode]
  by_cases hpath : maxPathBytes < pathBytes (steps ++ [name])
  · rw [if_pos hpath]
    exact .inr rfl
  · by_cases hlong : maxNameBytes < name.utf8ByteSize
    · rw [if_neg hpath, if_pos hlong]
      exact .inr rfl
    · rw [if_neg hpath, if_neg hlong]
      exact .inl rfl

end Entries

end Checkup.Tree
