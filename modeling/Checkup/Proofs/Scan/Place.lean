import Checkup.Proofs.Repair.Effect
import Checkup.Proofs.Tree.Steps
import Checkup.Proofs.Tree.Writing

/-!
# Files of a scan root in a tree without links

Without links a path of a scan root has one place, whatever files the tree holds. Reading the path
gives the content of the place, and a repair amends it there or changes nothing.

* `Context.locate_eq`: a path is located at its place.
* `Context.readText?_eq`: what is read; `Context.exists_place`: a file that is read has a place.
* `Context.rewrite_of_idle`, `Context.rewrite_of_writable`, `Context.rewrite_of_not_writable`: what
  an amendment does to the tree.
-/

namespace Checkup

namespace Context

variable {c : Context} {t : Tree} {path : String} {l : Location}

/-- The root of a scan on paper. -/
def base (c : Context) : Location := Tree.lexical [] c.root

/-- Where a path of a scan root leads on paper, if it stays in the root. -/
def place (c : Context) (path : String) : Except Fault Location :=
  if '\x00' ∈ path.toList then .error .nulByte
  else if c.base <+: Tree.lexical [] (Path.stepsFrom c.base path) then
    .ok (Tree.lexical [] (Path.stepsFrom c.base path))
  else .error (.outsideRoot path)

theorem plain_base (c : Context) : Tree.Plain c.base := Tree.plain_lexical Tree.plain_nil c.root

/-- A path is located at its place. -/
theorem locate_eq (h : t.Ordinary) (c : Context) (path : String) : c.locate t path = c.place path := by
  unfold locate place base
  rw [Tree.resolveSteps_eq h]
  dsimp only [bind, Except.bind]
  rw [Tree.resolve_eq h]
  by_cases hnul : '\x00' ∈ path.toList
  · rw [if_pos hnul, if_pos hnul]
  · rw [if_neg hnul, if_neg hnul]
    simp only [List.isPrefixOf_iff_prefix]
    rfl

theorem place_eq_ok (h : c.place path = .ok l) : '\x00' ∉ path.toList ∧
    l = Tree.lexical [] (Path.stepsFrom c.base path) ∧ c.base <+: l := by
  unfold place at h
  split at h
  · cases h
  · rename_i hnul
    split at h
    · rename_i hp
      cases h
      exact ⟨hnul, rfl, hp⟩
    · cases h

theorem plain_place (h : c.place path = .ok l) : Tree.Plain l := by
  obtain ⟨-, rfl, -⟩ := place_eq_ok h
  exact Tree.plain_lexical Tree.plain_nil _

/-- The place of a relative path. -/
theorem place_relative (hpath : Path.isAbsolute path = false) (h : c.place path = .ok l) :
    l = Tree.lexical c.base (Path.steps path) := by
  obtain ⟨-, rfl, -⟩ := place_eq_ok h
  rw [Path.stepsFrom_relative hpath, Tree.lexical_append, Tree.lexical_of_plain c.plain_base,
    List.nil_append]

/-- The place of a file directly in the root. -/
theorem place_name {name : String} (hname : Tree.IsName name) (hnul : '\x00' ∉ name.toList)
    (c : Context) : c.place name = .ok (c.base ++ [name]) := by
  have hrelative := Path.isAbsolute_name (.of_name hname)
  have htarget : Tree.lexical [] (Path.stepsFrom c.base name) = c.base ++ [name] := by
    rw [Path.stepsFrom_relative hrelative, Path.steps_of_isStep (.of_name hname),
      Tree.lexical_append, Tree.lexical_of_plain c.plain_base, List.nil_append, Tree.lexical,
      if_neg hname.ne_here, if_neg hname.ne_up, Tree.lexical]
  unfold place
  rw [if_neg hnul, htarget, if_pos (List.prefix_append _ _)]

/-- The last step of a path is the last name of its place. -/
theorem getLast?_place (hpath : Path.isAbsolute path = false) (h : c.place path = .ok l)
    {steps : List String} {name : String} (hsteps : Path.steps path = steps ++ [name])
    (hup : name ≠ "..") : l.getLast? = some name := by
  have hhere : name ≠ "." := fun heq => Path.not_here_steps path (heq ▸ hsteps ▸ by simp)
  rw [place_relative hpath h, hsteps, Tree.lexical_append, Tree.lexical, if_neg hhere, if_neg hup,
    Tree.lexical, List.getLast?_concat]

/-! ## Reading -/

/-- What is read at a path is the content of its place. -/
theorem readText?_eq (h : t.Ordinary) (c : Context) (path : String) : c.readText? t path =
    match c.place path with
    | .ok l => t.content l
    | .error _ => none := by
  unfold readText?
  rw [locate_eq h]
  rfl

theorem readText?_of_place (h : t.Ordinary) (hl : c.place path = .ok l) :
    c.readText? t path = t.content l := by
  rw [readText?_eq h, hl]

theorem readMembers?_of_place (h : t.Ordinary) (hl : c.place path = .ok l) :
    c.readMembers? t path = Amendment.membersOf (t.content l) := by
  rw [← readText?_of_place h hl]
  rfl

theorem readNonempty?_of_place (h : t.Ordinary) (hl : c.place path = .ok l) :
    c.readNonempty? t path = (t.content l).filter (· != "") := by
  rw [← readText?_of_place h hl]
  rfl

/-- A file that is read has a place, and is read there. -/
theorem exists_place (ht : t.Ordinary) {text : String} (h : c.readText? t path = some text) :
    ∃ l, c.place path = .ok l ∧ t.content l = some text := by
  rw [readText?_eq ht] at h
  cases hplace : c.place path with
  | error fault =>
    rw [hplace] at h
    cases h
  | ok l =>
    rw [hplace] at h
    exact ⟨l, rfl, h⟩

theorem exists_place_members (ht : t.Ordinary) {members : Json.Members}
    (h : c.readMembers? t path = some members) :
    ∃ l, c.place path = .ok l ∧ Amendment.membersOf (t.content l) = some members := by
  have hread : c.readMembers? t path = Amendment.membersOf (c.readText? t path) := rfl
  rw [hread] at h
  obtain ⟨text, htext⟩ : ∃ text, c.readText? t path = some text := by
    cases htext : c.readText? t path with
    | none =>
      rw [htext] at h
      cases h
    | some text => exact ⟨text, rfl⟩
  obtain ⟨l, hplace, hcontent⟩ := exists_place ht htext
  rw [htext, ← hcontent] at h
  exact ⟨l, hplace, h⟩

/-! ## Amending -/

variable {a : Amendment}

/-- An amendment outside of the root fails, or has nothing to amend. -/
theorem rewrite_of_error (h : t.Ordinary) {fault : Fault} (hl : c.place path = .error fault) :
    c.rewrite t path a = .unchanged t ∨ c.rewrite t path a = (.error (.file fault), t) := by
  unfold rewrite writeText
  rw [readText?_eq h, locate_eq h, hl]
  dsimp only
  rw [if_neg a.not_refuses_none]
  cases a.apply none with
  | none => exact .inl rfl
  | some s => exact .inr rfl

theorem rewrite_of_place (h : t.Ordinary) (hl : c.place path = .ok l) : c.rewrite t path a =
    if a.Refuses (t.content l) then (.error (.file .tooDeep), t)
    else
      match a.apply (t.content l) with
      | none => Repair.unchanged t
      | some s => Repair.ofWrite (t.writeText l s) := by
  have hwrite : ∀ s, c.writeText t path s = t.writeText l s := by
    intro s
    unfold writeText
    rw [locate_eq h, hl]
  unfold rewrite
  rw [readText?_of_place h hl]
  cases a.apply (t.content l) with
  | none => rfl
  | some s => simp only [hwrite]

/-- Where there is nothing to amend nothing is changed, but the repair may fail. -/
theorem rewrite_of_idle (h : t.Ordinary) (hl : c.place path = .ok l)
    (ha : a.apply (t.content l) = none) :
    c.rewrite t path a = .unchanged t ∨ c.rewrite t path a = (.error (.file .tooDeep), t) := by
  rw [rewrite_of_place h hl, ha]
  split
  · exact .inr rfl
  · exact .inl rfl

/-- An amendment is written where there is a file, or a free place for one. -/
theorem rewrite_of_writable (h : t.Ordinary) (hl : c.place path = .ok l) (hne : l ≠ [])
    (hw : t.Writable l) {s : String} (ha : a.apply (t.content l) = some s) :
    c.rewrite t path a = (.ok true, t.put l (.file s.toUTF8)) := by
  rw [rewrite_of_place h hl, if_neg (Amendment.not_refuses ha), ha]
  dsimp only
  rw [Tree.writeText_of_writable h (plain_place hl) hne hw]
  rfl

/-- An amendment that cannot be written fails. -/
theorem rewrite_of_not_writable (h : t.Ordinary) (hl : c.place path = .ok l)
    (hparent : t.node? l.dropLast = some .folder) (hw : ¬ t.Writable l) {s : String}
    (ha : a.apply (t.content l) = some s) :
    ∃ fault, c.rewrite t path a = (.error (.file fault), t) := by
  obtain ⟨fault, hwrite⟩ := Tree.writeText_of_not_writable h (plain_place hl) hparent hw s
  rw [rewrite_of_place h hl, if_neg (Amendment.not_refuses ha), ha]
  dsimp only
  rw [hwrite]
  exact ⟨fault, rfl⟩

end Context

end Checkup
