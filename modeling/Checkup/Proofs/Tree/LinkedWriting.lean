import Checkup.Proofs.Outcome
import Checkup.Proofs.Tree.Links
import Checkup.Proofs.Tree.Writing

/-!
# Writing in trees with links

Writing a file first makes the folders above it that are missing. In a tree with links that may be
anywhere: all that a write changes lies at the place to which its path leads, or at and below the
first free place on the way there.

* `makeFoldersUp_changes`: what making folders changes.
* `writeText_keeps`, `writeText_changes`: what writing a text keeps and what it changes.
* `writeText_of_access`: a text is written to the file that is there.
-/

namespace Checkup.Tree

variable {t t' : Tree} {steps : List String}

/-- Everything lies in a folder. -/
def Founded (t : Tree) : Prop :=
  ∀ {l : Location} {name : String} {node : Node}, t.node? (l ++ [name]) = some node →
    t.node? l = some .folder

theorem founded_of_entries (h : ∀ entry ∈ t.entries, t.node? entry.1.dropLast = some .folder) :
    t.Founded := by
  intro l name node hl
  have hparent := h _ (mem_entries (by simp) hl)
  rwa [List.dropLast_concat] at hparent

namespace Founded

/-- Above what is there are folders. -/
theorem folder_above (h : t.Founded) {q l : Location} (hq : q <+: l) (hne : q ≠ l)
    (hl : t.node? l ≠ none) : t.node? q = some .folder := by
  obtain ⟨below, rfl⟩ := hq
  induction below using List.reverseRecOn with
  | nil => exact absurd (List.append_nil q).symm hne
  | append_singleton below name ih =>
    rw [← List.append_assoc] at hl
    obtain ⟨node, hnode⟩ := Option.ne_none_iff_exists'.mp hl
    have hfolder := h hnode
    rcases List.eq_nil_or_concat' below with rfl | ⟨up, last, rfl⟩
    · rwa [List.append_nil] at hfolder
    · refine ih (fun heq => ?_) (by rw [hfolder]; exact Option.some_ne_none _)
      have hlength := congrArg List.length heq
      simp at hlength

theorem none_below (h : t.Founded) {l : Location} (hl : t.node? l = none) (below : List String) :
    t.node? (l ++ below) = none := by
  by_contra hsome
  rcases eq_or_ne below [] with rfl | hne
  · rw [List.append_nil] at hsome
    exact hsome hl
  · have hfolder := h.folder_above (List.prefix_append l below)
      (fun heq => hne (List.self_eq_append_right.mp heq)) hsome
    rw [hl] at hfolder
    cases hfolder

end Founded

theorem node?_put_of_ne (t : Tree) {l k : Location} (hk : k ≠ l) (node : Node) :
    (t.put l node).node? k = t.node? k := by
  unfold node? put
  by_cases hroot : k = []
  · rw [if_pos hroot, if_pos hroot]
  · rw [if_neg hroot, if_neg hroot, Association.lookup_put, if_neg hk]

/-- The trees have the same links. -/
def SameLinks (t t' : Tree) : Prop :=
  ∀ k target, t'.node? k = some (.link target) ↔ t.node? k = some (.link target)

namespace SameLinks

theorem refl (t : Tree) : SameLinks t t := fun _ _ => Iff.rfl

theorem trans {t'' : Tree} (h : SameLinks t t') (h' : SameLinks t' t'') : SameLinks t t'' :=
  fun k target => (h' k target).trans (h k target)

theorem put {l : Location} {node : Node} (hne : l ≠ []) (hnode : isLink node = false)
    (hl : ∀ target, t.node? l ≠ some (.link target)) : SameLinks t (t.put l node) := by
  intro k target
  rw [node?_put t hne]
  split
  · rename_i hk
    subst hk
    refine iff_of_false (fun heq => ?_) (hl target)
    cases heq
    cases hnode
  · exact Iff.rfl

end SameLinks

/-- What changed lies at or below a free place in a folder to which part of some steps lead. -/
def MadeBelow (t t' : Tree) (steps : List String) : Prop :=
  ∃ q name parent, q ++ [name] <+: steps ∧ t.access q = .ok (parent, .folder) ∧
    t.node? (parent ++ [name]) = none ∧
    ∀ k, t'.node? k ≠ t.node? k → parent ++ [name] <+: k

theorem leads_of_access {l : Location} {node : Node} (h : t.access steps = .ok (l, node)) :
    ∃ n, Leads t [] steps n l := (leads_of_find (find_of_access h)).1

namespace MadeBelow

/-- What further steps lead to lies below the place, too. -/
theorem below (ht : t.Founded) (hplain : Plain steps) {q : List String} {name : String}
    {parent : Location} (hq : q ++ [name] <+: steps) (haccess : t.access q = .ok (parent, .folder))
    (hnone : t.node? (parent ++ [name]) = none) {n : Nat} {l : Location}
    (hl : Leads t [] steps n l) : parent ++ [name] <+: l := by
  obtain ⟨more, rfl⟩ := hq
  have hfree : ∀ target, t.node? (parent ++ [name]) ≠ some (.link target) := by
    intro target hlink
    rw [hnone] at hlink
    cases hlink
  have hmore : Plain more := fun other hn => hplain other (List.mem_append_right _ hn)
  obtain ⟨h1, h2⟩ : name ≠ "." ∧ name ≠ ".." := hplain name (by simp)
  obtain ⟨_, _, mid, hfirst, hsecond, -⟩ := hl.split
  obtain ⟨_, _, mid', hfirst', hname, -⟩ := hfirst.split
  obtain ⟨_, haccess⟩ := leads_of_access haccess
  obtain ⟨-, rfl⟩ := haccess.unique hfirst'
  obtain ⟨-, rfl⟩ := hname.unique (.down h1 h2 hfree (.stay _))
  rw [leads_eq (fun below _ target hlink => ?_) hmore hsecond]
  · exact List.prefix_append _ _
  · rw [ht.none_below hnone below] at hlink
    cases hlink

theorem mono (h : MadeBelow t t' steps) (more : List String) : MadeBelow t t' (steps ++ more) := by
  obtain ⟨q, name, parent, hq, haccess, hnone, hall⟩ := h
  exact ⟨q, name, parent, hq.trans (List.prefix_append _ _), haccess, hnone, hall⟩

/-- Putting something where further steps lead to. -/
theorem put (h : MadeBelow t t' steps) (ht : t.Founded) (hlinks : SameLinks t t')
    (hplain : Plain steps) {n : Nat} {l : Location} (hl : Leads t' [] steps n l) {k : Location}
    (hk : l <+: k) (node : Node) : MadeBelow t (t'.put k node) steps := by
  obtain ⟨q, name, parent, hq, haccess, hnone, hall⟩ := h
  refine ⟨q, name, parent, hq, haccess, hnone, fun other hother => ?_⟩
  by_cases heq : other = k
  · rw [heq]
    have hl' : Leads t [] steps n l := hl.same_links fun k target => (hlinks k target).symm
    exact (below ht hplain hq haccess hnone hl').trans hk
  · rw [node?_put_of_ne t' heq] at hother
    exact hall other hother

end MadeBelow

/-! ## What writing keeps -/

/-- A tree with the links of another one, in which everything is still there and folders are still
folders. -/
structure Keeps (t t' : Tree) : Prop where
  links : SameLinks t t'
  folder : ∀ {l : Location}, t.node? l = some .folder → t'.node? l = some .folder
  there : ∀ {l : Location}, t.node? l ≠ none → t'.node? l ≠ none
  founded : t'.Founded

namespace Keeps

theorem refl (ht : t.Founded) : Keeps t t := ⟨.refl t, id, id, ht⟩

theorem trans {t'' : Tree} (h : Keeps t t') (h' : Keeps t' t'') : Keeps t t'' :=
  ⟨h.links.trans h'.links, fun hl => h'.folder (h.folder hl), fun hl => h'.there (h.there hl),
    h'.founded⟩

/-- Putting a file or a folder at a place in a folder where there is no folder yet. -/
theorem put (ht : t.Founded) {parent : Location} {name : String} {node : Node}
    (hparent : t.node? parent = some .folder) (hfree : t.node? (parent ++ [name]) ≠ some .folder)
    (hlink : ∀ target, t.node? (parent ++ [name]) ≠ some (.link target))
    (hnode : isLink node = false) : Keeps t (t.put (parent ++ [name]) node) := by
  have hne : parent ++ [name] ≠ [] := by simp
  have hself : (t.put (parent ++ [name]) node).node? (parent ++ [name]) = some node := by
    rw [node?_put t hne, if_pos rfl]
  have hfolder : ∀ {l : Location}, t.node? l = some .folder →
      (t.put (parent ++ [name]) node).node? l = some .folder := by
    intro l hl
    have hother : l ≠ parent ++ [name] := by
      rintro rfl
      exact hfree hl
    rw [node?_put_of_ne t hother]
    exact hl
  refine ⟨.put hne hnode hlink, hfolder, fun {l} hl => ?_, fun {l last other} hl => hfolder ?_⟩
  · by_cases heq : l = parent ++ [name]
    · rw [heq, hself]
      exact Option.some_ne_none _
    · rwa [node?_put_of_ne t heq]
  · by_cases heq : l ++ [last] = parent ++ [name]
    · obtain ⟨rfl, -⟩ := List.append_inj' heq rfl
      exact hparent
    · rw [node?_put_of_ne t heq] at hl
      exact ht hl

end Keeps

/-! ## Making folders -/

theorem makeFolder_eq_ok {made : Tree} (h : t.makeFolder steps = .ok made) : made = t ∨
    ∃ q name parent, steps = q ++ [name] ∧ t.access q = .ok (parent, .folder) ∧
      t.node? (parent ++ [name]) = none ∧ made = t.put (parent ++ [name]) .folder := by
  unfold makeFolder at h
  split at h
  · cases h
    exact .inl rfl
  · rename_i name hlast
    split at h
    · cases h
    · rename_i parent haccess
      split at h
      · cases h
        exact .inl rfl
      · split at h
        · cases h
        · split at h
          · rename_i hnone
            cases h
            refine .inr ⟨steps.dropLast, name, parent, ?_, haccess, hnone, rfl⟩
            exact (List.dropLast_append_getLast? name hlast).symm
          · split at h
            · cases h
              exact .inl rfl
            · cases h
            · cases h
    · cases h

/-- Making folders changes nothing, or only what lies below the first one that was missing. -/
theorem makeFoldersUp_changes (ht : t.Founded) {up : List String} (hplain : Plain up.reverse)
    {result : Except Fault Unit} (h : t.makeFoldersUp up = (result, t')) :
    Keeps t t' ∧ (t' = t ∨ MadeBelow t t' up.reverse) := by
  have hput : ∀ {s : Tree} {q : List String} {parent : Location} {name : String}, s.Founded →
      s.access q = .ok (parent, .folder) → s.node? (parent ++ [name]) = none →
      Keeps s (s.put (parent ++ [name]) .folder) := by
    intro s q parent name hs haccess hnone
    refine .put hs (leads_of_find (find_of_access haccess)).2 ?_ (fun target => ?_) rfl
    · rw [hnone]
      exact (Option.some_ne_none _).symm
    · rw [hnone]
      exact (Option.some_ne_none _).symm
  induction up generalizing result t' with
  | nil =>
    cases h
    exact ⟨.refl ht, .inl rfl⟩
  | cons name up ih =>
    rw [List.reverse_cons] at hplain ⊢
    have hplain' : Plain up.reverse := fun other hn => hplain other (List.mem_append_left _ hn)
    rw [makeFoldersUp, List.reverse_cons] at h
    split at h
    · rename_i made hmade
      cases h
      rcases makeFolder_eq_ok hmade with rfl | ⟨q, last, parent, hsteps, haccess, hnone, rfl⟩
      · exact ⟨.refl ht, .inl rfl⟩
      · refine ⟨hput ht haccess hnone, .inr ⟨q, last, parent, ?_, haccess, hnone, fun k hk => ?_⟩⟩
        · exact hsteps ▸ List.prefix_refl _
        · by_cases heq : k = parent ++ [last]
          · exact heq ▸ List.prefix_refl _
          · exact absurd (node?_put_of_ne t heq _) hk
    · rename_i hmissing
      split at h
      · rename_i fault left hup
        cases h
        obtain ⟨hkeeps, hbelow⟩ := ih hplain' hup
        exact ⟨hkeeps, hbelow.imp_right fun hbelow => hbelow.mono _⟩
      · rename_i above hup
        obtain ⟨hkeeps, hbelow⟩ := ih hplain' hup
        split at h
        · rename_i made hmade
          cases h
          rcases hbelow with rfl | hbelow
          · -- nothing was made above, so the folder cannot be made now
            rw [hmissing] at hmade
            cases hmade
          · rcases makeFolder_eq_ok hmade with rfl | ⟨q, last, parent, hsteps, haccess, hnone, rfl⟩
            · exact ⟨hkeeps, .inr (hbelow.mono _)⟩
            · refine ⟨hkeeps.trans (hput hkeeps.founded haccess hnone), .inr ?_⟩
              obtain ⟨rfl, -⟩ := List.append_inj' hsteps rfl
              obtain ⟨n, hleads⟩ := leads_of_access haccess
              exact (hbelow.put ht hkeeps.links hplain' hleads (List.prefix_append _ _) _).mono _
        · cases h
          exact ⟨hkeeps, hbelow.imp_right fun hbelow => hbelow.mono _⟩
    · cases h
      exact ⟨.refl ht, .inl rfl⟩

/-! ## Writing a text -/

/-- A free place at which an access ends lies in a folder. -/
theorem Follows.folder_of_vacant {links : Nat} {here l : Location} {place : Place}
    (h : Follows t links here steps place) (hplace : place = .vacant l) :
    ∃ parent name, l = parent ++ [name] ∧ t.node? parent = some .folder := by
  induction h with
  | stop => cases hplace
  | here _ _ _ ih => exact ih hplace
  | up _ _ _ ih => exact ih hplace
  | free hhere =>
    cases hplace
    exact ⟨_, _, rfl, hhere⟩
  | link _ _ _ _ ih => exact ih hplace
  | down _ _ _ _ _ ih => exact ih hplace

/-- Writing a file keeps what is there. -/
theorem writeBytes_keeps (ht : t.Founded) {bytes : ByteArray}
    (h : t.writeBytes steps bytes = .ok t') : Keeps t t' := by
  obtain ⟨l, rfl, hfind | ⟨old, hfind⟩⟩ := eq_put_of_writeBytes h
  · obtain ⟨parent, name, rfl, hparent⟩ := (find_eq_ok_iff.mp hfind).2.folder_of_vacant rfl
    have hnone : t.node? (parent ++ [name]) = none := (leads_of_find hfind).2
    refine .put ht hparent ?_ (fun target => ?_) rfl
    · rw [hnone]
      exact (Option.some_ne_none _).symm
    · rw [hnone]
      exact (Option.some_ne_none _).symm
  · have hfile : t.node? l = some (.file old) := (leads_of_find hfind).2
    rcases List.eq_nil_or_concat l with rfl | ⟨parent, name, rfl⟩
    · cases hfile
    · rw [List.concat_eq_append] at hfile ⊢
      refine .put ht (ht hfile) ?_ (fun target => ?_) rfl
      · rw [hfile]
        exact fun h => by cases h
      · rw [hfile]
        exact fun h => by cases h

/-- Writing a text keeps what is there. -/
theorem writeText_keeps (ht : t.Founded) (hplain : Plain steps) {text : String}
    {result : Except Fault Unit} (h : t.writeText steps text = (result, t')) : Keeps t t' := by
  have hplain' : Plain steps.dropLast.reverse.reverse := by
    rw [List.reverse_reverse]
    exact hplain.dropLast
  unfold writeText makeFolders at h
  split at h
  · rename_i fault left hfolders
    cases h
    exact (makeFoldersUp_changes ht hplain' hfolders).1
  · rename_i made hfolders
    have hkeeps := (makeFoldersUp_changes ht hplain' hfolders).1
    split at h
    · rename_i written hwritten
      cases h
      exact hkeeps.trans (writeBytes_keeps hkeeps.founded hwritten)
    · cases h
      exact hkeeps

/-- Writing a text changes nothing, or the place its path leads to, or what lies below the first
folder that was missing. -/
theorem writeText_changes (ht : t.Founded) (hplain : Plain steps) {text : String}
    {result : Except Fault Unit} (h : t.writeText steps text = (result, t')) :
    t' = t ∨ (∃ place, t.find steps = .ok place ∧ ∀ k, t'.node? k ≠ t.node? k → k = place.location) ∨
      MadeBelow t t' steps := by
  have hplain' : Plain steps.dropLast.reverse.reverse := by
    rw [List.reverse_reverse]
    exact hplain.dropLast
  have hmono : ∀ {s : Tree}, MadeBelow t s steps.dropLast → MadeBelow t s steps := by
    rintro s ⟨q, name, parent, hq, hrest⟩
    exact ⟨q, name, parent, hq.trans (List.dropLast_prefix steps), hrest⟩
  unfold writeText makeFolders at h
  split at h
  · rename_i fault left hfolders
    cases h
    have hbelow := (makeFoldersUp_changes ht hplain' hfolders).2
    rw [List.reverse_reverse] at hbelow
    exact hbelow.imp_right fun hbelow => .inr (hmono hbelow)
  · rename_i made hfolders
    obtain ⟨hkeeps, hbelow⟩ := makeFoldersUp_changes ht hplain' hfolders
    rw [List.reverse_reverse] at hbelow
    split at h
    · rename_i written hwritten
      cases h
      obtain ⟨place, hfind, rfl⟩ : ∃ place, made.find steps = .ok place ∧
          t' = made.put place.location (.file text.toUTF8) := by
        obtain ⟨l, hput, hfind | ⟨old, hfind⟩⟩ := eq_put_of_writeBytes hwritten
        · exact ⟨_, hfind, hput⟩
        · exact ⟨_, hfind, hput⟩
      rcases hbelow with rfl | hbelow
      · refine .inr (.inl ⟨place, hfind, fun k hk => ?_⟩)
        by_contra hne
        exact hk (node?_put_of_ne made hne _)
      · obtain ⟨⟨n, hleads⟩, -⟩ := leads_of_find hfind
        exact .inr (.inr ((hmono hbelow).put ht hkeeps.links hplain hleads (List.prefix_refl _) _))
    · cases h
      exact hbelow.imp_right fun hbelow => .inr (hmono hbelow)

/-! ## The parts of a path -/

theorem access_dropLast {name : String} {place : Place} (h : t.find (steps ++ [name]) = .ok place) :
    ∃ parent links, t.access steps = .ok (parent, .folder) ∧
      Follows t links parent [name] place := by
  obtain ⟨hpath, hfollows⟩ := find_eq_ok_iff.mp h
  obtain ⟨parent, hfirst, links, hname⟩ := hfollows.split rfl (List.cons_ne_nil _ _)
  have hfind : t.find steps = .ok (.present parent .folder) := by
    rw [pathBytes_append] at hpath
    exact find_eq_ok_iff.mpr ⟨Nat.le_of_add_right_le hpath, hfirst⟩
  refine ⟨parent, links, ?_, hname⟩
  rw [access, hfind]

/-- The last step of an access by a name that leads down. -/
theorem Follows.last {links : Nat} {parent : Location} {name : String} {place : Place}
    (h : Follows t links parent [name] place) (h1 : name ≠ ".") (h2 : name ≠ "..") :
    name.utf8ByteSize ≤ maxNameBytes ∧
      (t.node? (parent ++ [name]) = none → place = .vacant (parent ++ [name])) := by
  cases h with
  | here _ hname => exact absurd hname h1
  | up _ hname => exact absurd hname h2
  | free _ hname => exact ⟨hname.short, fun _ => rfl⟩
  | link _ hname hlink =>
    refine ⟨hname.short, fun hnone => ?_⟩
    rw [hnone] at hlink
    cases hlink
  | down _ hname hnode =>
    refine ⟨hname.short, fun hnone => ?_⟩
    rw [hnone] at hnode
    cases hnode

/-! ## Files that are there -/

theorem makeFolder_of_access {name : String} (hup : name ≠ "..") (hhere : name ≠ ".")
    (h : t.access (steps ++ [name]) = .ok (l, .folder)) : t.makeFolder (steps ++ [name]) = .ok t := by
  obtain ⟨parent, links, hparent, hname⟩ := access_dropLast (find_of_access h)
  obtain ⟨hlength, hfree⟩ := hname.last hhere hup
  have hfolder : t.isFolder? (steps ++ [name]) = .ok true := by
    unfold isFolder? holdsAt
    rw [h]
    rfl
  unfold makeFolder
  rw [List.getLast?_concat, List.dropLast_concat, hparent]
  dsimp only
  rw [if_neg hup, if_neg (Nat.not_lt.mpr hlength)]
  cases hnode : t.node? (parent ++ [name]) with
  | none => cases hfree hnode
  | some node => rw [hfolder]

/-- The folders above a file that is there need not be made. -/
theorem makeFolders_of_access (hplain : Plain steps) (h : t.access steps = .ok (l, .folder)) :
    t.makeFolders steps = (.ok (), t) := by
  unfold makeFolders
  rcases List.eq_nil_or_concat' steps with rfl | ⟨up, name, rfl⟩
  · rfl
  · have hname := hplain name (List.mem_append_right _ (List.mem_singleton_self name))
    have hrev : (up ++ [name]).reverse = name :: up.reverse := by simp
    have hback : (name :: up.reverse).reverse = up ++ [name] := by simp
    rw [hrev, makeFoldersUp, hback, makeFolder_of_access hname.2 hname.1 h]

/-- A text is written to the file that an access comes to, and nowhere else. -/
theorem writeText_of_access (hplain : Plain steps) {bytes : ByteArray}
    (h : t.access steps = .ok (l, .file bytes)) (text : String) :
    t.writeText steps text = (.ok (), t.put l (.file text.toUTF8)) := by
  have hfind := find_of_access h
  have hfolders : t.makeFolders steps.dropLast = (.ok (), t) := by
    rcases List.eq_nil_or_concat' steps with rfl | ⟨up, name, rfl⟩
    · rfl
    · obtain ⟨parent, -, hparent, -⟩ := access_dropLast hfind
      rw [List.dropLast_concat]
      exact makeFolders_of_access (fun n hn => hplain n (List.mem_append_left _ hn)) hparent
  unfold writeText
  rw [hfolders]
  dsimp only
  unfold writeBytes
  rw [hfind]

end Checkup.Tree
