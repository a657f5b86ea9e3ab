import Checkup.Proofs.Tree.Growth

/-!
# Reading and writing files in a tree without links

A location that is not too long is accessed as it stands. A text is written to a file in its place
or to a free place in a folder, and the tree changes there and nowhere else.

* `content_eq`: what is read at a location.
* `writeText_of_writable`, `writeText_of_not_writable`: what writing does.
* `content_put`, `content_put_of_ne`: what is read after writing.
-/

namespace Checkup.Tree

variable {t : Tree}

/-- Neither the path nor a name in it is too long. -/
structure Fits (l : Location) : Prop where
  path : pathBytes l ≤ maxPathBytes
  name : ∀ name ∈ l, name.utf8ByteSize ≤ maxNameBytes

theorem pathBytes_append (first second : List String) :
    pathBytes (first ++ second) = pathBytes first + pathBytes second := by
  induction first with
  | nil => exact (Nat.zero_add _).symm
  | cons name rest ih =>
    have hcons : ∀ more : List String, pathBytes (name :: more) =
        name.utf8ByteSize + 1 + pathBytes more := fun more => rfl
    rw [List.cons_append, hcons, hcons, ih]
    omega

theorem Fits.dropLast {l : Location} (h : Fits l) : Fits l.dropLast := by
  refine ⟨?_, fun name hn => h.name name ((List.dropLast_sublist l).subset hn)⟩
  rcases List.eq_nil_or_concat' l with rfl | ⟨up, name, rfl⟩
  · exact h.path
  · have := h.path
    rw [pathBytes_append] at this
    rw [List.dropLast_concat]
    omega

variable {onLink : Location → String → List String → Except Fault Place}

theorem walk_existing (h : t.Ordinary) {here steps : Location} {node : Node}
    (hl : t.node? (here ++ steps) = some node) :
    t.walk onLink here steps =
      if ∀ name ∈ steps, name.utf8ByteSize ≤ maxNameBytes then .ok (.present (here ++ steps) node)
      else .error .nameTooLong := by
  induction steps generalizing here with
  | nil =>
    rw [List.append_nil] at hl
    rw [walk, hl, List.append_nil, if_pos fun name hn => (by cases hn)]
  | cons name rest ih =>
    have happ : here ++ name :: rest = (here ++ [name]) ++ rest := by simp
    obtain ⟨child, hchild⟩ : ∃ child, t.node? (here ++ [name]) = some child := by
      rw [happ] at hl
      rcases eq_or_ne rest [] with rfl | hne
      · exact ⟨node, by rwa [List.append_nil] at hl⟩
      · exact ⟨_, h.folder_above hne hl⟩
    have hname := h.isName hchild
    rw [walk_name (h.parent hchild) hname.ne_here hname.ne_up]
    by_cases hlong : maxNameBytes < name.utf8ByteSize
    · rw [if_pos hlong, if_neg]
      intro hall
      have := hall name (List.mem_cons_self ..)
      omega
    · rw [if_neg hlong, hchild]
      rw [happ] at hl ⊢
      have hrec := ih hl
      have hiff : (∀ n ∈ name :: rest, n.utf8ByteSize ≤ maxNameBytes) ↔
          ∀ n ∈ rest, n.utf8ByteSize ≤ maxNameBytes := by
        rw [List.forall_mem_cons]
        exact and_iff_right (Nat.not_lt.mp hlong)
      simp only [hiff]
      cases child with
      | file b => exact hrec
      | folder => exact hrec
      | link target => exact absurd hchild h.no_link

theorem find_existing (h : t.Ordinary) {l : Location} {node : Node} (hl : t.node? l = some node)
    (hfits : Fits l) : t.find l = .ok (.present l node) := by
  have hwalk : t.follow maxLinks [] l = _ := walk_existing h hl
  rw [find, if_neg (Nat.not_lt.mpr hfits.path), hwalk, if_pos hfits.name]
  rfl

theorem find_existing_long (h : t.Ordinary) {l : Location} {node : Node} (hl : t.node? l = some node)
    (hfits : ¬ Fits l) : t.find l = .error .nameTooLong := by
  have hwalk : t.follow maxLinks [] l = _ := walk_existing h hl
  rw [find]
  split
  · rfl
  · rename_i hpath
    rw [hwalk, if_neg fun hname => hfits ⟨Nat.not_lt.mp hpath, hname⟩]

/-- Every name of a path that leads down has been stepped on. -/
theorem Follows.short_steps (h : t.Ordinary) {links : Nat} {here : Location} {steps : List String}
    {place : Place} (hp : Plain steps) (hf : Follows t links here steps place) : Short steps := by
  induction hf with
  | stop => exact short_nil
  | here _ hname => exact absurd hname (hp _ (List.mem_cons_self ..)).1
  | up _ hname => exact absurd hname (hp _ (List.mem_cons_self ..)).2
  | free _ hname => exact List.forall_mem_singleton.mpr hname.short
  | link _ _ hlink => exact absurd hlink h.no_link
  | down _ hname _ _ _ ih =>
    exact List.forall_mem_cons.mpr ⟨hname.short, ih (List.forall_mem_cons.mp hp).2⟩

theorem fits_of_find (h : t.Ordinary) {l : Location} (hp : Plain l) {place : Place}
    (hf : t.find l = .ok place) : Fits l := by
  obtain ⟨hpath, hfollows⟩ := find_eq_ok_iff.mp hf
  exact ⟨hpath, hfollows.short_steps h hp⟩

theorem pathBytes_dropLast_le (l : Location) : pathBytes l.dropLast ≤ pathBytes l := by
  rcases List.eq_nil_or_concat' l with rfl | ⟨up, name, rfl⟩
  · exact Nat.le_refl _
  · rw [List.dropLast_concat, pathBytes_append]
    omega

theorem pathBytes_lexical_le (here : Location) (steps : List String) :
    pathBytes (lexical here steps) ≤ pathBytes here + pathBytes steps := by
  induction steps generalizing here with
  | nil => exact Nat.le_add_right _ _
  | cons name rest ih =>
    have hcons : pathBytes (name :: rest) = name.utf8ByteSize + 1 + pathBytes rest := rfl
    have hup := pathBytes_dropLast_le here
    have hdown := pathBytes_append here [name]
    have hname : pathBytes [name] = name.utf8ByteSize + 1 + pathBytes [] := rfl
    have hnil : pathBytes [] = 0 := rfl
    rw [lexical]
    split
    · have := ih here
      omega
    · split
      · have := ih here.dropLast
        omega
      · have := ih (here ++ [name])
        omega

/-- Where a path leads fits if the path can be followed. -/
theorem fits_lexical (h : t.Ordinary) {steps : List String} {place : Place}
    (hf : t.find steps = .ok place) : Fits (lexical [] steps) := by
  obtain ⟨hpath, hfollows⟩ := find_eq_ok_iff.mp hf
  have hle := pathBytes_lexical_le [] steps
  have hnil : pathBytes [] = 0 := rfl
  refine ⟨by omega, ?_⟩
  rw [← hfollows.location_eq h]
  exact hfollows.short short_nil

/-- A location that does not fit is not found. -/
theorem find_long (h : t.Ordinary) {l : Location} (hp : Plain l) (hfits : ¬ Fits l) :
    ∃ fault, t.find l = .error fault := by
  cases hf : t.find l with
  | error fault => exact ⟨fault, rfl⟩
  | ok place => exact absurd (fits_of_find h hp hf) hfits

theorem foldersOn_of_folder (h : t.Ordinary) {here steps : Location}
    (hl : t.node? (here ++ steps) = some .folder)
    (hlen : ∀ name ∈ steps, name.utf8ByteSize ≤ maxNameBytes) : t.FoldersOn here steps := by
  induction steps generalizing here with
  | nil => rwa [List.append_nil] at hl
  | cons name rest ih =>
    have happ : here ++ name :: rest = (here ++ [name]) ++ rest := by simp
    have hhere := h.folder_above (List.cons_ne_nil name rest) hl
    have hname := h.names hl name (by simp)
    rw [happ] at hl
    exact ⟨hhere, hname.ne_here, hname.ne_up, hlen name (List.mem_cons_self ..),
      ih hl fun n hn => hlen n (List.mem_cons_of_mem name hn)⟩

/-- A free place in a folder is found. -/
theorem find_free (h : t.Ordinary) {folder : Location} {name : String} (h1 : name ≠ ".")
    (h2 : name ≠ "..") (hfolder : t.node? folder = some .folder)
    (hnone : t.node? (folder ++ [name]) = none) (hfits : Fits (folder ++ [name])) :
    t.find (folder ++ [name]) = .ok (.vacant (folder ++ [name])) := by
  have hfolders : t.FoldersOn [] folder :=
    foldersOn_of_folder h hfolder fun n hn => hfits.name n (List.mem_append_left _ hn)
  have hname : LeadsDown name :=
    ⟨h1, h2, hfits.name name (List.mem_append_right _ (List.mem_cons_self ..))⟩
  rw [find, if_neg (Nat.not_lt.mpr hfits.path), maxLinks, follow, walk_plain hfolders,
    List.nil_append, walk_below hfolder hname, hnone]
  rfl

/-! ## Reading -/

/-- The text that is read at a location, if there is one. -/
def content (t : Tree) (steps : List String) : Option String := (t.readText steps).toOption

/-- The text of a node. -/
def nodeText : Option Node → Option String
  | some (.file bytes) => (decodeText bytes).toOption
  | _ => none

theorem content_of_find {steps : List String} {l : Location} {node : Node}
    (h : t.find steps = .ok (.present l node)) : t.content steps = nodeText (some node) := by
  unfold content readText readBytes access
  rw [h]
  cases node with
  | file b => rfl
  | folder => rfl
  | link target => rfl

theorem content_of_vacant {steps : List String} {l : Location}
    (h : t.find steps = .ok (.vacant l)) : t.content steps = none := by
  unfold content readText readBytes access
  rw [h]
  rfl

theorem content_of_error {steps : List String} {fault : Fault}
    (h : t.find steps = .error fault) : t.content steps = none := by
  unfold content readText readBytes access
  rw [h]
  rfl

/-- The text of what stands at a location that fits. -/
theorem content_eq (h : t.Ordinary) {l : Location} (hp : Plain l) (hfits : Fits l) :
    t.content l = nodeText (t.node? l) := by
  cases hn : t.node? l with
  | some node => exact content_of_find (find_existing h hn hfits)
  | none =>
    cases hf : t.find l with
    | error fault => exact content_of_error hf
    | ok place =>
      cases place with
      | vacant k => exact content_of_vacant hf
      | present k node =>
        obtain ⟨rfl, hnode⟩ := find_present h hf
        rw [lexical_of_plain hp, List.nil_append, hn] at hnode
        cases hnode

theorem content_of_not_fits (h : t.Ordinary) {l : Location} (hp : Plain l) (hfits : ¬ Fits l) :
    t.content l = none := by
  obtain ⟨fault, hf⟩ := find_long h hp hfits
  exact content_of_error hf

/-- A text is read from a file only. -/
theorem file_of_content (h : t.Ordinary) {l : Location} (hp : Plain l) {text : String}
    (hc : t.content l = some text) : Fits l ∧ ∃ bytes, t.node? l = some (.file bytes) ∧
      (decodeText bytes).toOption = some text := by
  by_cases hfits : Fits l
  · rw [content_eq h hp hfits] at hc
    cases hn : t.node? l with
    | none => rw [hn] at hc; cases hc
    | some node =>
      rw [hn] at hc
      cases node with
      | file b => exact ⟨hfits, b, rfl, hc⟩
      | folder => cases hc
      | link target => cases hc
  · rw [content_of_not_fits h hp hfits] at hc
    cases hc

/-! ## Writing -/

/-- A file can be written there. -/
structure Writable (t : Tree) (l : Location) : Prop where
  fits : Fits l
  place : (∃ bytes, t.node? l = some (.file bytes)) ∨
    (t.node? l = none ∧ t.node? l.dropLast = some .folder)

theorem access_folder (h : t.Ordinary) {l : Location} (hl : t.node? l = some .folder) :
    t.access l = .ok (l, .folder) ∨ t.access l = .error .nameTooLong := by
  unfold access
  by_cases hfits : Fits l
  · rw [find_existing h hl hfits]
    exact .inl rfl
  · rw [find_existing_long h hl hfits]
    exact .inr rfl

theorem isFolder?_folder (h : t.Ordinary) {l : Location} (hl : t.node? l = some .folder) :
    t.isFolder? l = .ok true ∨ t.isFolder? l = .error .nameTooLong := by
  unfold isFolder? holdsAt
  rcases access_folder h hl with ha | ha
  · rw [ha]
    exact .inl rfl
  · rw [ha]
    exact .inr rfl

theorem makeFolder_existing (h : t.Ordinary) {l : Location} (hl : t.node? l = some .folder) :
    t.makeFolder l = .ok t ∨ t.makeFolder l = .error .nameTooLong := by
  rcases List.eq_nil_or_concat' l with rfl | ⟨up, name, rfl⟩
  · exact .inl rfl
  · have hname := h.isName hl
    unfold makeFolder
    rw [List.getLast?_concat, List.dropLast_concat]
    dsimp only
    rcases access_folder h (h.parent hl) with ha | ha
    · rw [ha]
      dsimp only
      rw [if_neg hname.ne_up, hl]
      dsimp only
      split
      · exact .inr rfl
      · rcases isFolder?_folder h hl with hf | hf
        · rw [hf]
          exact .inl rfl
        · rw [hf]
          exact .inr rfl
    · rw [ha]
      exact .inr rfl

theorem makeFolders_existing (h : t.Ordinary) {l : Location} (hl : t.node? l = some .folder) :
    t.makeFolders l = (.ok (), t) ∨ ∃ fault, t.makeFolders l = (.error fault, t) := by
  unfold makeFolders
  rcases List.eq_nil_or_concat' l with rfl | ⟨up, name, rfl⟩
  · exact .inl rfl
  · have hrev : (up ++ [name]).reverse = name :: up.reverse := by simp
    have hback : (name :: up.reverse).reverse = up ++ [name] := by simp
    rw [hrev, makeFoldersUp, hback]
    rcases makeFolder_existing h hl with hm | hm
    · rw [hm]
      exact .inl rfl
    · rw [hm]
      exact .inr ⟨_, rfl⟩

theorem makeFolders_of_fits (h : t.Ordinary) {l : Location} (hl : t.node? l = some .folder)
    (hfits : Fits l) : t.makeFolders l = (.ok (), t) := by
  unfold makeFolders
  rcases List.eq_nil_or_concat' l with rfl | ⟨up, name, rfl⟩
  · rfl
  · have hrev : (up ++ [name]).reverse = name :: up.reverse := by simp
    have hback : (name :: up.reverse).reverse = up ++ [name] := by simp
    have hname := h.isName hl
    have hparent : t.access up = .ok (up, .folder) := by
      have hup := hfits.dropLast
      rw [List.dropLast_concat] at hup
      unfold access
      rw [find_existing h (h.parent hl) hup]
    have hfolder : t.isFolder? (up ++ [name]) = .ok true := by
      unfold isFolder? holdsAt access
      rw [find_existing h hl hfits]
      rfl
    have hlen : ¬ maxNameBytes < name.utf8ByteSize :=
      Nat.not_lt.mpr (hfits.name name (List.mem_append_right _ (List.mem_cons_self ..)))
    have hmake : t.makeFolder (up ++ [name]) = .ok t := by
      unfold makeFolder
      rw [List.getLast?_concat, List.dropLast_concat]
      dsimp only
      rw [hparent]
      dsimp only
      rw [if_neg hname.ne_up, if_neg hlen, hl]
      dsimp only
      rw [hfolder]
    rw [hrev, makeFoldersUp, hback, hmake]

theorem find_of_writable (h : t.Ordinary) {l : Location} (hp : Plain l) (hne : l ≠ [])
    (hw : t.Writable l) :
    (∃ bytes, t.find l = .ok (.present l (.file bytes))) ∨ t.find l = .ok (.vacant l) := by
  rcases hw.place with ⟨bytes, hb⟩ | ⟨hnone, hparent⟩
  · exact .inl ⟨bytes, find_existing h hb hw.fits⟩
  · obtain ⟨up, name, rfl⟩ := (List.eq_nil_or_concat' l).resolve_left hne
    rw [List.dropLast_concat] at hparent
    obtain ⟨h1, h2⟩ := hp name (by simp)
    exact .inr (find_free h h1 h2 hparent hnone hw.fits)

/-- Writing to a file in its place, or to a free place in a folder. -/
theorem writeText_of_writable (h : t.Ordinary) {l : Location} (hp : Plain l) (hne : l ≠ [])
    (hw : t.Writable l) (text : String) :
    t.writeText l text = (.ok (), t.put l (.file text.toUTF8)) := by
  have hparent : t.node? l.dropLast = some .folder := by
    rcases hw.place with ⟨bytes, hb⟩ | ⟨-, hparent⟩
    · exact h.folder_dropLast hb
    · exact hparent
  unfold writeText writeBytes
  rw [makeFolders_of_fits h hparent hw.fits.dropLast]
  dsimp only
  rcases find_of_writable h hp hne hw with ⟨bytes, hf⟩ | hf
  · rw [hf]
  · rw [hf]

/-- Elsewhere in a folder nothing can be written, and nothing changes. -/
theorem writeText_of_not_writable (h : t.Ordinary) {l : Location} (hp : Plain l)
    (hparent : t.node? l.dropLast = some .folder) (hw : ¬ t.Writable l) (text : String) :
    ∃ fault, t.writeText l text = (.error fault, t) := by
  unfold writeText writeBytes
  rcases makeFolders_existing h hparent with hm | ⟨fault, hm⟩
  · rw [hm]
    dsimp only
    cases hf : t.find l with
    | error fault => exact ⟨fault, rfl⟩
    | ok place =>
      have hfits := fits_of_find h hp hf
      cases place with
      | vacant k =>
        obtain ⟨rfl, hnone, -⟩ := find_vacant h hf
        rw [lexical_of_plain hp, List.nil_append] at hnone
        exact absurd ⟨hfits, .inr ⟨hnone, hparent⟩⟩ hw
      | present k node =>
        obtain ⟨rfl, hnode⟩ := find_present h hf
        rw [lexical_of_plain hp, List.nil_append] at hnode
        cases node with
        | file b => exact absurd ⟨hfits, .inl ⟨b, hnode⟩⟩ hw
        | folder => exact ⟨.isFolder, rfl⟩
        | link target => exact ⟨.tooManyLinks, rfl⟩
  · rw [hm]
    exact ⟨fault, rfl⟩

/-! ## Reading what was written -/

theorem fromUTF8?_toUTF8 (text : String) : String.fromUTF8? text.toUTF8 = some text := by
  have hvalid : text.toUTF8.IsValidUTF8 := text.isValidUTF8
  rw [String.fromUTF8?, dif_pos hvalid]
  rfl

theorem decodeText_toUTF8 {text : String} (h : '\r' ∉ text.toList) :
    decodeText text.toUTF8 = .ok text := by
  rw [decodeText, fromUTF8?_toUTF8]
  dsimp only
  rw [Text.normalizeNewlines_of_not_mem h, String.ofList_toList]

theorem not_return_decodeText {bytes : ByteArray} {text : String}
    (h : decodeText bytes = .ok text) : '\r' ∉ text.toList := by
  unfold decodeText at h
  split at h
  · cases h
    rw [String.toList_ofList]
    exact Text.not_mem_normalizeNewlines _
  · cases h

theorem content_put (h : t.Ordinary) {l : Location} (hp : Plain l) (hne : l ≠ [])
    (hw : t.Writable l) (hname : ∀ name ∈ l.getLast?, IsName name) {text : String}
    (htext : '\r' ∉ text.toList) : (t.put l (.file text.toUTF8)).content l = some text := by
  have hfree : t.node? l ≠ some .folder := by
    rcases hw.place with ⟨bytes, hb⟩ | ⟨hnone, -⟩
    · rw [hb]
      intro heq
      cases heq
    · rw [hnone]
      intro heq
      cases heq
  have hparent : t.node? l.dropLast = some .folder := by
    rcases hw.place with ⟨bytes, hb⟩ | ⟨-, hparent⟩
    · exact h.folder_dropLast hb
    · exact hparent
  have hput := h.put_file hne hfree hparent hname text.toUTF8
  rw [content_eq hput hp hw.fits, node?_put t hne, if_pos rfl, nodeText, decodeText_toUTF8 htext]
  rfl

theorem content_congr (h : t.Ordinary) {t' : Tree} (h' : t'.Ordinary) {l : Location} (hp : Plain l)
    (hl : t'.node? l = t.node? l) : t'.content l = t.content l := by
  by_cases hfits : Fits l
  · rw [content_eq h' hp hfits, content_eq h hp hfits, hl]
  · rw [content_of_not_fits h' hp hfits, content_of_not_fits h hp hfits]

end Checkup.Tree
