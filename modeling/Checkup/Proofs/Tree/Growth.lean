import Checkup.Proofs.Tree.Ordinary

/-!
# Trees that grow

A tree grows when files change their bytes and new files of one name appear, while all folders stay
what they are. Following a path in the grown tree ends where it ended before, unless a new file
stands there.

* `find_grown`: where a path leads before and after.
* `access_folder_grown`, `isFolder?_grown`, `exists?_grown`: what is a folder stays one, and nothing else
  appears.
* `Grown.put_file`: writing a file is such a change.
-/

namespace Checkup.Tree

/-- The same folders, the same files with other bytes, and new files of the name `fresh`. -/
structure Grown (fresh : String) (t t' : Tree) : Prop where
  old : t.Ordinary
  new : t'.Ordinary
  folder : ∀ {l}, t'.node? l = some .folder ↔ t.node? l = some .folder
  file : ∀ {l bytes}, t.node? l = some (.file bytes) → ∃ bytes', t'.node? l = some (.file bytes')
  fresh : ∀ {l bytes'}, t'.node? l = some (.file bytes') → t.node? l = none →
    l.getLast? = some fresh

variable {fresh : String} {t t' t'' : Tree}

namespace Grown

theorem refl (fresh : String) (h : t.Ordinary) : Grown fresh t t where
  old := h
  new := h
  folder := Iff.rfl
  file h := ⟨_, h⟩
  fresh h hnone := by rw [hnone] at h; cases h

theorem trans (h : Grown fresh t t') (h' : Grown fresh t' t'') : Grown fresh t t'' where
  old := h.old
  new := h'.new
  folder := h'.folder.trans h.folder
  file hl := by
    obtain ⟨bytes, hb⟩ := h.file hl
    exact h'.file hb
  fresh {l bytes} hl hnone := by
    cases hn : t'.node? l with
    | none => exact h'.fresh hl hn
    | some node =>
      cases node with
      | file b => exact h.fresh hn hnone
      | folder =>
        rw [h.folder.mp hn] at hnone
        cases hnone
      | link target => exact absurd hn h.new.no_link

/-- Writing a file in its place, or a new one of the name in a folder. -/
theorem put_file (h : t.Ordinary) {l : Location} {bytes : ByteArray}
    (hl : (∃ old, t.node? l = some (.file old)) ∨
      (t.node? l = none ∧ t.node? l.dropLast = some .folder ∧ l.getLast? = some fresh))
    (hname : IsName fresh) : Grown fresh t (t.put l (.file bytes)) := by
  have hne : l ≠ [] := by
    rintro rfl
    rcases hl with ⟨old, hold⟩ | ⟨hnone, -⟩
    · cases hold
    · cases hnone
  have hput := node?_put t hne (.file bytes)
  have hfree : t.node? l ≠ some .folder := by
    rcases hl with ⟨old, hold⟩ | ⟨hnone, -⟩
    · rw [hold]
      intro heq
      cases heq
    · rw [hnone]
      intro heq
      cases heq
  refine ⟨h, ?_, ?_, ?_, ?_⟩
  · rcases hl with ⟨old, hold⟩ | ⟨-, hparent, hlast⟩
    · refine h.put_file hne hfree (h.folder_dropLast hold) (fun name hn => ?_) bytes
      exact h.names hold name (List.mem_of_getLast? hn)
    · refine h.put_file hne hfree hparent (fun name hn => ?_) bytes
      rw [hlast] at hn
      obtain rfl := Option.some.inj hn
      exact hname
  · intro k
    rw [hput]
    split
    · rename_i heq
      subst heq
      exact ⟨fun hk => (by cases hk), fun hk => absurd hk hfree⟩
    · exact Iff.rfl
  · intro k b hk
    rw [hput]
    split
    · exact ⟨bytes, rfl⟩
    · exact ⟨b, hk⟩
  · intro k b hk hnone
    rw [hput] at hk
    split at hk
    · rename_i heq
      subst heq
      rcases hl with ⟨old, hold⟩ | ⟨-, -, hlast⟩
      · rw [hnone] at hold
        cases hold
      · exact hlast
    · rw [hnone] at hk
      cases hk

theorem none_or_file (h : Grown fresh t t') {l : Location} (hl : t.node? l = none) :
    t'.node? l = none ∨ ∃ bytes, t'.node? l = some (.file bytes) ∧ l.getLast? = some fresh := by
  cases hn : t'.node? l with
  | none => exact .inl rfl
  | some node =>
    cases node with
    | file b => exact .inr ⟨b, rfl, h.fresh hn hl⟩
    | folder =>
      rw [h.folder.mp hn] at hl
      cases hl
    | link target => exact absurd hn h.new.no_link

/-- What stood at a location still does, though a file may have other bytes. -/
theorem folder_or_file (h : Grown fresh t t') {l : Location} (hl : t.node? l ≠ none) :
    (t.node? l = some .folder ∧ t'.node? l = some .folder) ∨
      ∃ b b', t.node? l = some (.file b) ∧ t'.node? l = some (.file b') := by
  cases hn : t.node? l with
  | none => exact absurd hn hl
  | some node =>
    cases node with
    | file b =>
      obtain ⟨b', hb'⟩ := h.file hn
      exact .inr ⟨b, b', rfl, hb'⟩
    | folder => exact .inl ⟨rfl, h.folder.mpr hn⟩
    | link target => exact absurd hn h.old.no_link

end Grown

/-! ## Following a path -/

/-- How the end of a path in a tree and in the grown tree go together. -/
inductive PlaceGrown (fresh : String) (t t' : Tree) :
    Except Fault Place → Except Fault Place → Prop
  | folder (l : Location) : PlaceGrown fresh t t' (.ok (.present l .folder)) (.ok (.present l .folder))
  | file {l : Location} {bytes bytes' : ByteArray} (h : t.node? l = some (.file bytes))
    (h' : t'.node? l = some (.file bytes')) :
    PlaceGrown fresh t t' (.ok (.present l (.file bytes))) (.ok (.present l (.file bytes')))
  | vacant (l : Location) : PlaceGrown fresh t t' (.ok (.vacant l)) (.ok (.vacant l))
  | filled {l : Location} {bytes' : ByteArray} (h : t.node? l = none)
    (h' : t'.node? l = some (.file bytes')) (hl : l.getLast? = some fresh) :
    PlaceGrown fresh t t' (.ok (.vacant l)) (.ok (.present l (.file bytes')))
  | fault (e : Fault) : PlaceGrown fresh t t' (.error e) (.error e)
  /-- The path went through a name at which there is a file now. -/
  | blocked : PlaceGrown fresh t t' (.error .missing) (.error .notFolder)

variable {onLink onLink' : Location → String → List String → Except Fault Place}

theorem walk_file {bytes : ByteArray} {here : Location} (h : t.node? here = some (.file bytes))
    (name : String) (rest : List String) : t.walk onLink here (name :: rest) = .error .notFolder := by
  rw [walk.eq_def]
  dsimp only
  rw [h]

theorem walk_grown (h : Grown fresh t t') {here : Location} (hhere : t.node? here ≠ none)
    (steps : List String) :
    PlaceGrown fresh t t' (t.walk onLink here steps) (t'.walk onLink' here steps) := by
  induction steps generalizing here with
  | nil =>
    rw [walk, walk]
    rcases h.folder_or_file hhere with ⟨hn, hn'⟩ | ⟨b, b', hn, hn'⟩
    · rw [hn, hn']
      exact .folder here
    · rw [hn, hn']
      exact .file hn hn'
  | cons name rest ih =>
    rcases h.folder_or_file hhere with ⟨hn, hn'⟩ | ⟨b, b', hn, hn'⟩
    · have hup : t.node? here.dropLast ≠ none := by
        rw [h.old.folder_dropLast hn]
        exact Option.some_ne_none _
      by_cases h1 : name = "."
      · rw [walk_here hn h1, walk_here hn' h1]
        exact ih hhere
      by_cases h2 : name = ".."
      · rw [walk_up hn h2, walk_up hn' h2]
        exact ih hup
      rw [walk_name hn h1 h2, walk_name hn' h1 h2]
      split
      · exact .fault _
      by_cases hc : t.node? (here ++ [name]) = none
      · rw [hc]
        rcases h.none_or_file hc with hc' | ⟨b', hc', hlast⟩
        · rw [hc']
          dsimp only
          split
          · exact .vacant _
          · exact .fault _
        · rw [hc']
          dsimp only
          cases rest with
          | nil =>
            rw [walk, hc']
            exact .filled hc hc' hlast
          | cons next more =>
            rw [walk_file hc']
            exact .blocked
      · rcases h.folder_or_file hc with ⟨hchild, hchild'⟩ | ⟨b, b', hchild, hchild'⟩
        · rw [hchild, hchild']
          exact ih hc
        · rw [hchild, hchild']
          exact ih hc
    · rw [walk_file hn, walk_file hn']
      exact .fault _

/-- Following a path ends where it ended before, or at a new file, or in front of one. -/
theorem find_grown (h : Grown fresh t t') (steps : List String) :
    PlaceGrown fresh t t' (t.find steps) (t'.find steps) := by
  have hroot : t.node? [] ≠ none := Option.some_ne_none _
  unfold find
  split
  · exact .fault _
  · exact walk_grown h hroot steps

/-- Paths lead to the same folders. -/
theorem access_folder_grown (h : Grown fresh t t') {steps : List String} {l : Location} :
    t'.access steps = .ok (l, .folder) ↔ t.access steps = .ok (l, .folder) := by
  have hplace := find_grown h steps
  unfold access
  generalize t.find steps = place at hplace ⊢
  generalize t'.find steps = place' at hplace ⊢
  cases hplace with
  | folder k => exact Iff.rfl
  | file hf hf' => exact iff_of_false (fun h => by cases h) fun h => by cases h
  | vacant k => exact Iff.rfl
  | filled hn hf' hlast => exact iff_of_false (fun h => by cases h) fun h => by cases h
  | fault e => exact Iff.rfl
  | blocked => exact iff_of_false (fun h => by cases h) fun h => by cases h

/-- A folder is found at the same paths, and at paths that cannot be followed for the same cause. -/
theorem isFolder?_grown (h : Grown fresh t t') (steps : List String) :
    t'.isFolder? steps = t.isFolder? steps := by
  have hf := find_grown h steps
  unfold isFolder? holdsAt access
  generalize t.find steps = place at hf ⊢
  generalize t'.find steps = place' at hf ⊢
  cases hf with
  | folder l => rfl
  | file h h' => rfl
  | vacant l => rfl
  | filled h h' hl => rfl
  | fault e => rfl
  | blocked => rfl

/-- Following a path ends at its last name. -/
theorem find_last (h : t.Ordinary) {steps : List String} {name : String} (h1 : name ≠ ".")
    (h2 : name ≠ "..") {place : Place} (hf : t.find (steps ++ [name]) = .ok place) :
    (∃ l node, place = .present l node ∧ l.getLast? = some name) ∨
      (∃ l, place = .vacant l ∧ l.getLast? = some name) := by
  have hlast : (lexical [] (steps ++ [name])).getLast? = some name := by
    rw [lexical_append, lexical, if_neg h1, if_neg h2, lexical, List.getLast?_concat]
  rcases (find_eq_ok_iff.mp hf).2.on_paper h with ⟨node, hp, -⟩ | ⟨hp, -⟩
  · exact .inl ⟨_, node, hp, hlast⟩
  · exact .inr ⟨_, hp, hlast⟩

/-- Nothing appears at a path whose last name is not that of the new files. -/
theorem exists?_grown (h : Grown fresh t t') (steps : List String) {name : String} (h1 : name ≠ ".")
    (h2 : name ≠ "..") (hname : name ≠ fresh) :
    t'.exists? (steps ++ [name]) = t.exists? (steps ++ [name]) := by
  have hf := find_grown h (steps ++ [name])
  have hlast : ∀ {place}, t.find (steps ++ [name]) = .ok place → _ := fun hp => find_last h.old h1 h2 hp
  unfold exists? holdsAt access
  generalize t.find (steps ++ [name]) = place at hf hlast ⊢
  generalize t'.find (steps ++ [name]) = place' at hf ⊢
  cases hf with
  | folder l => rfl
  | file h h' => rfl
  | vacant l => rfl
  | filled h h' hl =>
    rcases hlast rfl with ⟨l, node, heq, -⟩ | ⟨l, heq, hlast⟩
    · cases heq
    · cases heq
      rw [hl] at hlast
      exact absurd (Option.some.inj hlast).symm hname
  | fault e => rfl
  | blocked => rfl

end Checkup.Tree
