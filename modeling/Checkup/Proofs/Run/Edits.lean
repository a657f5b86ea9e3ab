import Checkup.Proofs.Outcome
import Checkup.Proofs.Scan.Place
import Checkup.Proofs.Tree.Growth

/-!
# Trees after amendments

The repairs of a run amend files one after the other. Such a tree grows, every file says what its
amendments make of it, and an amendment that is settled stays settled.

* `Amended.grown`: the amended tree has grown by files of ignored paths only.
* `Amended.content`: what a file says in it.
* `Amended.settled`: nothing is left to do where nothing was left to do.
* `Amended.node?_eq`: other places keep their files.
-/

namespace Checkup

/-- Amendments and the places of the files they are made to. -/
abbrev Edits := Location → Amendment → Prop

/-- The edits are aimed at files of suitable names, and those that make a file at folders. -/
structure Aimed (E : Edits) (t : Tree) : Prop where
  suits : ∀ {l a}, E l a → ∃ name, l.getLast? = some name ∧ a.Suits name
  plain : ∀ {l a}, E l a → Tree.Plain l
  parent : ∀ {l a}, E l a → a.apply none ≠ none → t.node? l.dropLast = some .folder

/-- There is nothing to amend, or it cannot be written. -/
def Settled (t : Tree) (l : Location) (a : Amendment) : Prop :=
  ∀ s, a.apply (t.content l) = some s → ¬ t.Writable l

/-- A tree after amendments, each of which was written in its turn. -/
inductive Amended (E : Edits) (t : Tree) : Tree → Prop
  | refl : Amended E t t
  | step {t' : Tree} {l : Location} {a : Amendment} {s : String} (h : Amended E t t') (hl : E l a)
    (hw : t'.Writable l) (hs : a.apply (t'.content l) = some s) :
    Amended E t (t'.put l (.file s.toUTF8))

variable {E : Edits} {t t' : Tree} {l : Location} {a : Amendment}

/-! ## Single amendments -/

theorem not_settled (hw : t.Writable l) {text : Option String} (hcontent : t.content l = text)
    (ha : (a.apply text).isSome = true) : ¬ Settled t l a := by
  intro hs
  obtain ⟨s, hs'⟩ := Option.isSome_iff_exists.mp ha
  rw [← hcontent] at hs'
  exact hs s hs' hw

theorem Tree.not_return_content {s : String} (h : t.content l = some s) : '\r' ∉ s.toList := by
  have hread : t.readText l = .ok s := by
    unfold Tree.content at h
    cases hr : t.readText l with
    | error fault =>
      rw [hr] at h
      cases h
    | ok text =>
      rw [hr] at h
      exact congrArg Except.ok (Option.some.inj h)
  obtain ⟨bytes, -, hdecode⟩ := Except.bind_eq_ok.mp hread
  exact Tree.not_return_decodeText hdecode

theorem Amendment.eq_ignore {a : Amendment} (h : a.apply none ≠ none) :
    ∃ kind message, a = .ignore kind message := by
  cases a with
  | ignore kind message => exact ⟨kind, message, rfl⟩
  | _ => exact absurd rfl h

namespace Aimed

theorem ne_nil (hE : Aimed E t) (hl : E l a) : l ≠ [] := by
  rintro rfl
  obtain ⟨name, hname, -⟩ := hE.suits hl
  cases hname

/-- An edit suits the last name of its place. -/
theorem suits_last (hE : Aimed E t) {name : String} (hname : l.getLast? = some name) (hl : E l a) :
    a.Suits name := by
  obtain ⟨last, hlast, hsuits⟩ := hE.suits hl
  rw [hname] at hlast
  exact Option.some.inj hlast ▸ hsuits

/-- What an edit amends is a file, or a place in a folder. -/
theorem folder (hE : Aimed E t) (h : t.Ordinary) (hl : E l a) {s : String}
    (hs : a.apply (t.content l) = some s) : t.node? l.dropLast = some .folder := by
  cases hc : t.content l with
  | none =>
    rw [hc] at hs
    exact hE.parent hl (by rw [hs]; exact Option.some_ne_none s)
  | some text =>
    obtain ⟨-, bytes, hbytes, -⟩ := Tree.file_of_content h (hE.plain hl) hc
    exact h.folder_dropLast hbytes

/-- An edit that makes a file makes one of ignored paths. -/
theorem file_or_new (hE : Aimed E t) (h : t.Ordinary) (hl : E l a) (hw : t.Writable l) {s : String}
    (hs : a.apply (t.content l) = some s) : (∃ bytes, t.node? l = some (.file bytes)) ∨
      (t.node? l = none ∧ t.node? l.dropLast = some .folder ∧ l.getLast? = some ".gitignore") := by
  rcases hw.place with hfile | ⟨hnone, hfolder⟩
  · exact .inl hfile
  · refine .inr ⟨hnone, hfolder, ?_⟩
    have hcontent : t.content l = none := by
      rw [Tree.content_eq h (hE.plain hl) hw.fits, hnone]
      rfl
    rw [hcontent] at hs
    obtain ⟨kind, message, rfl⟩ := Amendment.eq_ignore (by rw [hs]; exact Option.some_ne_none s)
    obtain ⟨name, hname, hsuits⟩ := hE.suits hl
    obtain rfl : name = ".gitignore" := hsuits
    exact hname

theorem isName_gitignore : Tree.IsName ".gitignore" := by
  constructor <;> decide

theorem grown_put (hE : Aimed E t) (h : t.Ordinary) (hl : E l a) (hw : t.Writable l) {s : String}
    (hs : a.apply (t.content l) = some s) :
    Tree.Grown ".gitignore" t (t.put l (.file s.toUTF8)) :=
  Tree.Grown.put_file h (hE.file_or_new h hl hw hs) isName_gitignore

/-- What was written is read again. -/
theorem content_put (hE : Aimed E t) (h : t.Ordinary) (hl : E l a) (hw : t.Writable l) {s : String}
    (hs : a.apply (t.content l) = some s) : (t.put l (.file s.toUTF8)).content l = some s := by
  have hreturn : '\r' ∉ s.toList :=
    Amendment.not_return_apply (fun _ => Tree.not_return_content) hs
  have hname : ∀ name ∈ l.getLast?, Tree.IsName name := by
    intro name hname
    rcases hE.file_or_new h hl hw hs with ⟨bytes, hb⟩ | ⟨-, -, hlast⟩
    · exact h.names hb name (List.mem_of_getLast? hname)
    · rw [hlast] at hname
      exact Option.some.inj hname ▸ isName_gitignore
  exact Tree.content_put h (hE.plain hl) (hE.ne_nil hl) hw hname hreturn

/-- An amendment that was made is settled. -/
theorem settled_put (hE : Aimed E t) (h : t.Ordinary) (hl : E l a) (hw : t.Writable l) {s : String}
    (hs : a.apply (t.content l) = some s) : Settled (t.put l (.file s.toUTF8)) l a := by
  intro s' hs'
  rw [hE.content_put h hl hw hs, Amendment.apply_done hs] at hs'
  cases hs'

theorem mono {E' : Edits} (hE : Aimed E t) (h : ∀ {l a}, E' l a → E l a) : Aimed E' t where
  suits hl := hE.suits (h hl)
  plain hl := hE.plain (h hl)
  parent hl := hE.parent (h hl)

theorem of_grown {fresh : String} (hE : Aimed E t) (h : Tree.Grown fresh t t') : Aimed E t' where
  suits := hE.suits
  plain := hE.plain
  parent hl ha := h.folder.mpr (hE.parent hl ha)

end Aimed

/-- The same places can be written. -/
theorem Tree.Grown.writable_iff {fresh : String} (h : Tree.Grown fresh t t') (l : Location) :
    t'.Writable l ↔ t.Writable l := by
  constructor
  · rintro ⟨hfits, hplace⟩
    refine ⟨hfits, ?_⟩
    rcases hplace with ⟨bytes, hb⟩ | ⟨hnone, hfolder⟩
    · cases hn : t.node? l with
      | none => exact .inr ⟨rfl, h.folder.mp (h.new.folder_dropLast hb)⟩
      | some node =>
        cases node with
        | file b => exact .inl ⟨b, rfl⟩
        | folder =>
          rw [h.folder.mpr hn] at hb
          cases hb
        | link target => exact absurd hn h.old.no_link
    · cases hn : t.node? l with
      | none => exact .inr ⟨rfl, h.folder.mp hfolder⟩
      | some node =>
        cases node with
        | file b =>
          obtain ⟨b', hb'⟩ := h.file hn
          rw [hnone] at hb'
          cases hb'
        | folder =>
          rw [h.folder.mpr hn] at hnone
          cases hnone
        | link target => exact absurd hn h.old.no_link
  · rintro ⟨hfits, hplace⟩
    refine ⟨hfits, ?_⟩
    rcases hplace with ⟨bytes, hb⟩ | ⟨hnone, hfolder⟩
    · exact .inl (h.file hb)
    · rcases h.none_or_file hnone with hnone' | ⟨bytes, hb, -⟩
      · exact .inr ⟨hnone', h.folder.mpr hfolder⟩
      · exact .inl ⟨bytes, hb⟩

/-! ## Any number of amendments -/

namespace Amended

theorem trans {t'' : Tree} (h : Amended E t t') (h' : Amended E t' t'') : Amended E t t'' := by
  induction h' with
  | refl => exact h
  | step _ hl hw hs ih => exact .step ih hl hw hs

/-- The amended tree has grown by files of ignored paths only. -/
theorem grown (hE : Aimed E t) (ht : t.Ordinary) (h : Amended E t t') :
    Tree.Grown ".gitignore" t t' := by
  induction h with
  | refl => exact .refl _ ht
  | step _ hl hw hs ih => exact ih.trans ((hE.of_grown ih).grown_put ih.new hl hw hs)

/-- What a file says after its amendments. -/
theorem content (hE : Aimed E t) (ht : t.Ordinary) (h : Amended E t t') {l : Location}
    (hp : Tree.Plain l) : Rewritten (E l) (t.content l) (t'.content l) := by
  induction h with
  | refl => exact .refl
  | @step t' k a s h hl hw hs ih =>
    have hgrown := h.grown hE ht
    have haimed := hE.of_grown hgrown
    have hput := haimed.grown_put hgrown.new hl hw hs
    by_cases hk : l = k
    · subst hk
      rw [haimed.content_put hgrown.new hl hw hs]
      exact .step ih hl hs
    · have hnode : (t'.put k (.file s.toUTF8)).node? l = t'.node? l := by
        rw [Tree.node?_put t' (haimed.ne_nil hl), if_neg hk]
      rw [Tree.content_congr hgrown.new hput.new hp hnode]
      exact ih

/-- Nothing is left to do where nothing was left to do. -/
theorem settled (hE : Aimed E t) (ht : t.Ordinary) (h : Amended E t t') (hl : E l a)
    (hs : Settled t l a) : Settled t' l a := by
  intro s happly hw
  have hw' := ((h.grown hE ht).writable_iff l).mp hw
  obtain ⟨name, hname, hsuits⟩ := hE.suits hl
  have hidle : a.apply (t.content l) = none := by
    cases ha : a.apply (t.content l) with
    | none => rfl
    | some s' => exact absurd hw' (hs s' ha)
  rw [(h.content hE ht (hE.plain hl)).idle (fun _ => hE.suits_last hname) hsuits hidle]
    at happly
  cases happly

/-- Other places keep what stands there. -/
theorem node?_eq (hE : Aimed E t) (h : Amended E t t') (hl : ∀ a, ¬ E l a) :
    t'.node? l = t.node? l := by
  induction h with
  | refl => rfl
  | @step t' k a s h hk hw hs ih =>
    have hne : l ≠ k := by
      rintro rfl
      exact hl a hk
    rw [Tree.node?_put t' (hE.ne_nil hk), if_neg hne, ih]

end Amended

end Checkup
