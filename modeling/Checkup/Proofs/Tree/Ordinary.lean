import Checkup.Proofs.Tree.Follows
import Checkup.Tree.Edit
import Mathlib.Data.List.Basic
import Mathlib.Data.List.Induction

/-!
# Trees of files and folders

In a tree without links a path is followed as it is written: a name leads down and `..` leads up.

* `resolve_eq`: a path comes to where its steps lead on paper.
* `find_present`, `find_vacant`: following a path ends at the same place.
* `Ordinary.put_file`: writing a file into a folder keeps the tree in order.
-/

namespace Checkup.Tree

/-- A name that an entry of a folder can have. -/
structure IsName (name : String) : Prop where
  ne_empty : name ≠ ""
  ne_here : name ≠ "."
  ne_up : name ≠ ".."
  no_slash : '/' ∉ name.toList

/-- A tree of files and folders: no links, and everything lies in a folder under a proper name. -/
structure Ordinary (t : Tree) : Prop where
  no_link : ∀ {l : Location} {target : String}, t.node? l ≠ some (.link target)
  parent : ∀ {l : Location} {name : String} {node : Node}, t.node? (l ++ [name]) = some node →
    t.node? l = some .folder
  isName : ∀ {l : Location} {name : String} {node : Node}, t.node? (l ++ [name]) = some node →
    IsName name

/-- Every entry of a folder has a proper name. -/
def Named (t : Tree) : Prop :=
  ∀ {l : Location} {name : String} {node : Node}, t.node? (l ++ [name]) = some node → IsName name

/-- Every name of a location leads down. -/
def Plain (l : Location) : Prop := ∀ name ∈ l, name ≠ "." ∧ name ≠ ".."

variable {t : Tree}

namespace Ordinary

theorem named (h : t.Ordinary) : t.Named := h.isName

/-- What is there has proper names all the way. -/
theorem names (h : t.Ordinary) {l : Location} {node : Node} (hl : t.node? l = some node) :
    ∀ name ∈ l, IsName name := by
  induction l using List.reverseRecOn generalizing node with
  | nil => intro name hn; cases hn
  | append_singleton l last ih =>
    intro name hn
    rcases List.mem_append.mp hn with hn | hn
    · exact ih (h.parent hl) name hn
    · rw [List.mem_singleton.mp hn]
      exact h.isName hl

theorem plain (h : t.Ordinary) {l : Location} {node : Node} (hl : t.node? l = some node) :
    Plain l := fun name hn => ⟨(h.names hl name hn).ne_here, (h.names hl name hn).ne_up⟩

theorem folder_dropLast (h : t.Ordinary) {l : Location} {node : Node} (hl : t.node? l = some node) :
    t.node? l.dropLast = some .folder := by
  rcases List.eq_nil_or_concat' l with rfl | ⟨up, name, rfl⟩
  · exact node?_nil t
  · rw [List.dropLast_concat]
    exact h.parent hl

/-- Everything above what is there is a folder. -/
theorem folder_above (h : t.Ordinary) {l below : Location} {node : Node} (hb : below ≠ [])
    (hl : t.node? (l ++ below) = some node) : t.node? l = some .folder := by
  induction below using List.reverseRecOn generalizing node with
  | nil => exact absurd rfl hb
  | append_singleton below last ih =>
    rw [← List.append_assoc] at hl
    have hparent := h.parent hl
    rcases eq_or_ne below [] with rfl | hne
    · rwa [List.append_nil] at hparent
    · exact ih hne hparent

end Ordinary

/-! ## Trees that are written out -/

instance decidableIsName (name : String) : Decidable (IsName name) :=
  decidable_of_iff (name ≠ "" ∧ name ≠ "." ∧ name ≠ ".." ∧ '/' ∉ name.toList)
    ⟨fun ⟨h1, h2, h3, h4⟩ => ⟨h1, h2, h3, h4⟩, fun ⟨h1, h2, h3, h4⟩ => ⟨h1, h2, h3, h4⟩⟩

/-- The node is a link. -/
def isLink : Node → Bool
  | .link _ => true
  | _ => false

/-- What stands below the root directory is listed. -/
theorem mem_entries {l : Location} {node : Node} (hne : l ≠ []) (hl : t.node? l = some node) :
    (l, node) ∈ t.entries := by
  unfold node? at hl
  rw [if_neg hne] at hl
  obtain ⟨first, rest, hlist, -⟩ := List.lookup_eq_some_iff.mp hl
  rw [hlist]
  exact List.mem_append_right first (List.mem_cons_self ..)

theorem named_of_entries (h : ∀ entry ∈ t.entries, ∀ name ∈ entry.1.getLast?, IsName name) :
    t.Named := by
  intro l name node hl
  exact h _ (mem_entries (by simp) hl) name List.getLast?_concat

/-- A tree that lists no links, and everything in a folder under a proper name. -/
theorem ordinary_of_entries (h : ∀ entry ∈ t.entries, isLink entry.2 = false ∧
    t.node? entry.1.dropLast = some .folder ∧ ∀ name ∈ entry.1.getLast?, IsName name) :
    t.Ordinary := by
  have hentry : ∀ {l : Location} {node : Node}, l ≠ [] → t.node? l = some node →
      isLink node = false ∧ t.node? l.dropLast = some .folder ∧
        ∀ name ∈ l.getLast?, IsName name :=
    fun hne hl => h _ (mem_entries hne hl)
  refine ⟨?_, ?_, ?_⟩
  · intro l target hl
    have hne : l ≠ [] := by
      rintro rfl
      cases hl
    cases (hentry hne hl).1
  · intro l name node hl
    have hparent := (hentry (by simp) hl).2.1
    rwa [List.dropLast_concat] at hparent
  · intro l name node hl
    exact (hentry (by simp) hl).2.2 name List.getLast?_concat

/-! ## Paths on paper -/

/-- Where steps lead from a location on paper. -/
def lexical (here : Location) : List String → Location
  | [] => here
  | name :: rest =>
    if name = "." then lexical here rest
    else if name = ".." then lexical here.dropLast rest
    else lexical (here ++ [name]) rest

theorem lexical_append (here : Location) (first second : List String) :
    lexical here (first ++ second) = lexical (lexical here first) second := by
  induction first generalizing here with
  | nil => rfl
  | cons name rest ih =>
    simp only [List.cons_append, lexical]
    split
    · exact ih here
    · split
      · exact ih here.dropLast
      · exact ih (here ++ [name])

theorem lexical_of_plain {steps : List String} (h : Plain steps) (here : Location) :
    lexical here steps = here ++ steps := by
  induction steps generalizing here with
  | nil => exact (List.append_nil here).symm
  | cons name rest ih =>
    obtain ⟨h1, h2⟩ := h name (List.mem_cons_self ..)
    rw [lexical, if_neg h1, if_neg h2, ih (fun n hn => h n (List.mem_cons_of_mem name hn)),
      List.append_assoc]
    rfl

theorem Plain.append {first second : Location} (h1 : Plain first) (h2 : Plain second) :
    Plain (first ++ second) := by
  intro name hn
  rcases List.mem_append.mp hn with hn | hn
  · exact h1 name hn
  · exact h2 name hn

theorem Plain.dropLast {l : Location} (h : Plain l) : Plain l.dropLast :=
  fun name hn => h name ((List.dropLast_sublist l).subset hn)

theorem plain_nil : Plain [] := fun name hn => by cases hn

theorem plain_lexical {here : Location} (h : Plain here) (steps : List String) :
    Plain (lexical here steps) := by
  induction steps generalizing here with
  | nil => exact h
  | cons name rest ih =>
    rw [lexical]
    split
    · exact ih h
    · split
      · exact ih h.dropLast
      · rename_i h1 h2
        refine ih (h.append fun n hn => ?_)
        rw [List.mem_singleton.mp hn]
        exact ⟨h1, h2⟩

/-! ## Resolving and following -/

theorem resolveWith_eq (h : t.Ordinary) (expand : Location → String → Resolved) (here : Location)
    (steps : List String) : t.resolveWith expand here steps = .straight (lexical here steps) := by
  induction steps generalizing here with
  | nil => rfl
  | cons name rest ih =>
    rw [resolveWith, lexical]
    split
    · exact ih here
    · split
      · exact ih here.dropLast
      · split
        · rename_i target hlink
          exact absurd hlink h.no_link
        · exact ih (here ++ [name])

theorem resolveSteps_eq (h : t.Ordinary) (steps : List String) :
    t.resolveSteps steps = .ok (lexical [] steps) := by
  rw [resolveSteps, resolveFrom, resolveWith_eq h]

/-- A path comes to where its steps lead on paper. -/
theorem resolve_eq (h : t.Ordinary) (directory : List String) (path : String) :
    t.resolve directory path = if '\x00' ∈ path.toList then .error .nulByte
      else .ok (lexical [] (Path.stepsFrom directory path)) := by
  rw [resolve, resolveSteps_eq h]

/-- Following steps ends on paper's place: at what is there, or at a free place in a folder. -/
theorem Follows.on_paper (h : t.Ordinary) {links : Nat} {here : Location} {steps : List String}
    {place : Place} (hf : Follows t links here steps place) :
    (∃ node, place = .present (lexical here steps) node ∧
      t.node? (lexical here steps) = some node) ∨
    (place = .vacant (lexical here steps) ∧ t.node? (lexical here steps) = none ∧
      t.node? (lexical here steps).dropLast = some .folder) := by
  induction hf with
  | stop hnode => exact .inl ⟨_, rfl, hnode⟩
  | here _ hname _ ih => rwa [lexical, if_pos hname]
  | up _ hname _ ih => rwa [lexical, if_neg (hname ▸ by decide), if_pos hname]
  | free hhere hname hnone =>
    rw [lexical, if_neg hname.ne_here, if_neg hname.ne_up, lexical, List.dropLast_concat]
    exact .inr ⟨rfl, hnone, hhere⟩
  | link _ _ hlink => exact absurd hlink h.no_link
  | down _ hname _ _ _ ih => rwa [lexical, if_neg hname.ne_here, if_neg hname.ne_up]

theorem Follows.location_eq (h : t.Ordinary) {links : Nat} {here : Location} {steps : List String}
    {place : Place} (hf : Follows t links here steps place) : place.location = lexical here steps := by
  rcases hf.on_paper h with ⟨node, rfl, -⟩ | ⟨rfl, -⟩
  · rfl
  · rfl

theorem find_present (h : t.Ordinary) {steps : List String} {l : Location} {node : Node}
    (hf : t.find steps = .ok (.present l node)) :
    l = lexical [] steps ∧ t.node? l = some node := by
  rcases (find_eq_ok_iff.mp hf).2.on_paper h with ⟨found, heq, hnode⟩ | ⟨heq, -⟩
  · cases heq
    exact ⟨rfl, hnode⟩
  · cases heq

theorem find_vacant (h : t.Ordinary) {steps : List String} {l : Location}
    (hf : t.find steps = .ok (.vacant l)) :
    l = lexical [] steps ∧ t.node? l = none ∧ t.node? l.dropLast = some .folder := by
  rcases (find_eq_ok_iff.mp hf).2.on_paper h with ⟨found, heq, hnode⟩ | ⟨heq, hnone, hparent⟩
  · cases heq
  · cases heq
    exact ⟨rfl, hnone, hparent⟩

/-! ## Writing a file into a folder -/

theorem Ordinary.put_file (h : t.Ordinary) {l : Location} (hl : l ≠ [])
    (hfree : t.node? l ≠ some .folder) (hparent : t.node? l.dropLast = some .folder)
    (hname : ∀ name ∈ l.getLast?, IsName name) (bytes : ByteArray) :
    (t.put l (.file bytes)).Ordinary := by
  have hput := node?_put t hl (.file bytes)
  have hdrop : l.dropLast ≠ l := by
    intro heq
    have hlen := congrArg List.length heq
    have hpos := List.length_pos_iff.mpr hl
    rw [List.length_dropLast] at hlen
    omega
  refine ⟨?_, ?_, ?_⟩
  · intro k target hk
    rw [hput] at hk
    split at hk
    · cases hk
    · exact h.no_link hk
  · intro k name node hk
    rw [hput] at hk ⊢
    split at hk
    · rename_i heq
      rw [← heq, List.dropLast_concat] at hparent hdrop
      rw [heq] at hdrop
      rw [if_neg hdrop]
      exact hparent
    · have hfolder := h.parent hk
      have hne : k ≠ l := by
        rintro rfl
        exact hfree hfolder
      rw [if_neg hne]
      exact hfolder
  · intro k name node hk
    rw [hput] at hk
    split at hk
    · rename_i heq
      exact hname name (by rw [← heq, List.getLast?_concat]; exact rfl)
    · exact h.isName hk

end Checkup.Tree
