import Checkup.Proofs.Markup.Tags
import Checkup.Proofs.Pattern.Covering

/-!
# Anchors on a line

The pattern for anchors takes an opening tag, passes over everything in it but `>`, and goes on as far
as a link to a path can be read behind that. So it finds the first anchor of a line from which such a
link can be read, and keeps the path of the last one in its tag.

* `Anchor`: an anchor on a line.
* `FirstLink`: the link that is found on a line.
* `firstKept?_internalAnchor`: what the pattern keeps of a line.
* `exists_firstLink_iff`: where it finds a link.
-/

namespace Checkup

namespace Pattern

variable {q : Pattern} {accepts : Char → Bool} {place : Cursor} {found : Found}

theorem matchAt?_seq_one : (seq (one accepts) q).matchAt? place = some found ↔
    ∃ c rest, place.rest = c :: rest ∧ accepts c = true ∧ q.matchAt? (.past c rest) = some found := by
  obtain ⟨before, text⟩ := place
  unfold matchAt?
  rw [matchThen, matchThen]
  cases text with
  | nil => simp
  | cons c rest => simp

end Pattern

namespace Markup

open Pattern (isQuote anyCase char one run keep seq sequence internalAnchor Matches Cursor Found)

variable {line tag front rest : List Char} {place : Cursor} {found : Found}

/-! ## The link in a tag -/

/-- The link to a path, from its name on; keeps the path. -/
def linkToPath : Pattern :=
  sequence [anyCase 'h', anyCase 'r', anyCase 'e', anyCase 'f', char '=', one isQuote,
    keep (sequence [char '/', run fun c => !isQuote c])]

theorem internalAnchor_eq : internalAnchor = seq (char '<') (seq (anyCase 'a')
    (seq (one Text.isBlank) (seq (run (· != '>')) linkToPath))) := rfl

/-- The path that is read from the text behind its slash: it ends before the next quotation mark. -/
def pathOf (rest : List Char) : List Char := '/' :: rest.takeWhile (!isQuote ·)

theorem isHref_iff {name : List Char} : isHref name = true ↔ ∃ h r e f : Char, name = [h, r, e, f] ∧
    h.toLower = 'h' ∧ r.toLower = 'r' ∧ e.toLower = 'e' ∧ f.toLower = 'f' := by
  have hletters : "href".toList = ['h', 'r', 'e', 'f'] := rfl
  rw [isHref, beq_iff_eq, hletters]
  constructor
  · intro hname
    simp only [List.map_eq_cons_iff, List.map_eq_nil_iff] at hname
    obtain ⟨h, _, rfl, hh, r, _, rfl, hr, e, _, rfl, he, f, _, rfl, hf, rfl⟩ := hname
    exact ⟨h, r, e, f, rfl, hh, hr, he, hf⟩
  · rintro ⟨h, r, e, f, rfl, hh, hr, he, hf⟩
    simp [hh, hr, he, hf]

theorem matchAt?_linkToPath (h : linkToPath.matchAt? place = some found) : ∃ name mark rest,
    place.rest = name ++ '=' :: mark :: '/' :: rest ∧ isHref name = true ∧ isQuote mark = true ∧
      found.kept = [pathOf rest] := by
  obtain ⟨c₁, text, hplace, h₁, h⟩ := Pattern.matchAt?_seq_one.mp h
  obtain ⟨c₂, text, rfl, h₂, h⟩ := Pattern.matchAt?_seq_one.mp h
  obtain ⟨c₃, text, rfl, h₃, h⟩ := Pattern.matchAt?_seq_one.mp h
  obtain ⟨c₄, text, rfl, h₄, h⟩ := Pattern.matchAt?_seq_one.mp h
  obtain ⟨equals, text, rfl, hequals, h⟩ := Pattern.matchAt?_seq_one.mp h
  obtain ⟨mark, text, rfl, hmark, h⟩ := Pattern.matchAt?_seq_one.mp h
  obtain ⟨slash, rest, rfl, hslash, hkept⟩ := Pattern.matchAt?_keep_run h
  obtain rfl : equals = '=' := beq_iff_eq.mp hequals
  obtain rfl : slash = '/' := beq_iff_eq.mp hslash
  refine ⟨[c₁, c₂, c₃, c₄], mark, rest, hplace, ?_, hmark, hkept⟩
  exact isHref_iff.mpr ⟨c₁, c₂, c₃, c₄, rfl, beq_iff_eq.mp h₁, beq_iff_eq.mp h₂, beq_iff_eq.mp h₃,
    beq_iff_eq.mp h₄⟩

theorem exists_matches_linkToPath {name : List Char} {mark : Char} (hname : isHref name = true)
    (hmark : isQuote mark = true) (before : Option Char) (rest : List Char) :
    ∃ found, Matches linkToPath ⟨before, name ++ '=' :: mark :: '/' :: rest⟩ found := by
  obtain ⟨h, r, e, f, rfl, hh, hr, he, hf⟩ := isHref_iff.mp hname
  have hpath : Matches (keep (sequence [char '/', run fun c => !isQuote c])) ⟨some mark, '/' :: rest⟩ _ :=
    .keep (.seq (.one _ _ (by decide)) (.runStop _ _))
  exact ⟨_, .seq (.one _ _ (beq_iff_eq.mpr hh)) (.seq (.one _ _ (beq_iff_eq.mpr hr))
    (.seq (.one _ _ (beq_iff_eq.mpr he)) (.seq (.one _ _ (beq_iff_eq.mpr hf))
      (.seq (.one _ _ (by decide)) (.seq (.one _ _ hmark) hpath)))))⟩

/-! ## The first link on a line -/

/-- An anchor stands on a line, named in either case of letters; `tag` is the text behind the white
space after its name. -/
def Anchor (line tag : List Char) : Prop :=
  ∃ before name space, line = before ++ '<' :: name :: space :: tag ∧ name.toLower = 'a' ∧
    Text.isBlank space = true

/-- The last link to a path that can be read in the first tag of a line in which one can be read. -/
structure FirstLink (line tag front rest : List Char) : Prop where
  anchor : Anchor line tag
  path : PathAt tag front rest
  first : ∀ {tag' front' rest' : List Char}, Anchor line tag' → PathAt tag' front' rest' →
    tag'.length ≤ tag.length
  last : ∀ {front' rest' : List Char}, PathAt tag front' rest' → front'.length ≤ front.length

/-- The run in front of a link and the link itself match. -/
theorem PathAt.exists_matches (h : PathAt tag front rest) (before : Option Char) : ∃ after found,
    Matches (run (· != '>')) ⟨before, tag⟩ ⟨[], after⟩ ∧ Matches linkToPath after found ∧
      tag.length = front.length + after.rest.length := by
  obtain ⟨name, mark, rfl, hname, hmark⟩ := h.stands
  have hfront : ∀ c ∈ front, (c != '>') = true := by
    intro c hc
    rw [bne_iff_ne]
    rintro rfl
    exact h.within hc
  obtain ⟨before', hrun⟩ := Pattern.exists_matches_run hfront before (name ++ '=' :: mark :: '/' :: rest)
  obtain ⟨found, hlink⟩ := exists_matches_linkToPath hname hmark before' rest
  exact ⟨_, found, hrun, hlink, List.length_append⟩

theorem exists_matches_internalAnchor {name space : Char} (hname : name.toLower = 'a')
    (hspace : Text.isBlank space = true) (h : PathAt tag front rest) (before : Option Char) :
    ∃ found, Matches internalAnchor ⟨before, '<' :: name :: space :: tag⟩ found := by
  obtain ⟨after, found, hrun, hlink, -⟩ := h.exists_matches (some space)
  exact ⟨_, .seq (.one _ _ (by decide)) (.seq (.one _ _ (beq_iff_eq.mpr hname))
    (.seq (.one _ _ hspace) (.seq hrun hlink)))⟩

/-- The pattern takes an opening tag up to the last link that can be read in it. -/
theorem matchAt?_internalAnchor (h : internalAnchor.matchAt? place = some found) :
    ∃ name space tag front rest, place.rest = '<' :: name :: space :: tag ∧ name.toLower = 'a' ∧
      Text.isBlank space = true ∧ PathAt tag front rest ∧ found.kept = [pathOf rest] ∧
      ∀ {front' rest' : List Char}, PathAt tag front' rest' → front'.length ≤ front.length := by
  rw [internalAnchor_eq] at h
  obtain ⟨opening, text, hplace, hopening, h⟩ := Pattern.matchAt?_seq_one.mp h
  obtain rfl : opening = '<' := beq_iff_eq.mp hopening
  obtain ⟨name, text, rfl, hname, h⟩ := Pattern.matchAt?_seq_one.mp h
  obtain ⟨space, tag, rfl, hspace, h⟩ := Pattern.matchAt?_seq_one.mp h
  obtain ⟨after, hrun, hlink, hleast⟩ := Pattern.exists_of_matchAt?_run h
  obtain ⟨front, hsplit, hfront⟩ := Pattern.matches_run hrun
  obtain ⟨href, mark, rest, hafter, hhref, hmark, hkept⟩ := matchAt?_linkToPath hlink
  have htag : tag = front ++ after.rest := hsplit
  have hwithin : '>' ∉ front := fun hmem => by simpa using hfront _ hmem
  refine ⟨name, space, tag, front, rest, hplace, beq_iff_eq.mp hname, hspace,
    ⟨⟨href, mark, hafter ▸ htag, hhref, hmark⟩, hwithin⟩, hkept, ?_⟩
  -- were there a link further on, the run would go on up to there
  intro front' rest' hpath
  obtain ⟨after', found', hrun', hlink', hlength⟩ := hpath.exists_matches (some space)
  obtain ⟨first, -, hfirst⟩ := Pattern.matchAt?_of_matches hlink'
  have hle := hleast after' hrun' (by rw [hfirst]; exact Option.some_ne_none first)
  rw [htag, List.length_append] at hlength
  omega

/-- What a search on a line finds. -/
theorem exists_firstLink_of_search? (h : internalAnchor.search? line = some found) :
    ∃ tag front rest, FirstLink line tag front rest ∧ found.kept = [pathOf rest] := by
  obtain ⟨above, below, rfl, hat, hleast⟩ := Pattern.exists_leftmost_of_searchFrom? h
  obtain ⟨name, space, tag, front, rest, hbelow, hname, hspace, hpath, hkept, hlast⟩ :=
    matchAt?_internalAnchor hat
  obtain rfl : below = '<' :: name :: space :: tag := hbelow
  refine ⟨tag, front, rest, ⟨⟨above, name, space, rfl, hname, hspace⟩, hpath, ?_, hlast⟩, hkept⟩
  rintro tag' front' rest' ⟨above', name', space', hsplit, hname', hspace'⟩ hpath'
  obtain ⟨found', hmatch⟩ := exists_matches_internalAnchor hname' hspace' hpath' (above'.getLast?.or none)
  have hle := hleast above' _ found' hsplit hmatch
  have hlengths := congrArg List.length hsplit
  simp only [List.length_append, List.length_cons] at hlengths
  omega

theorem exists_search?_of_pathAt (hanchor : Anchor line tag) (hpath : PathAt tag front rest) :
    ∃ found, internalAnchor.search? line = some found := by
  obtain ⟨above, name, space, rfl, hname, hspace⟩ := hanchor
  obtain ⟨found, hmatch⟩ := exists_matches_internalAnchor hname hspace hpath (above.getLast?.or none)
  obtain ⟨_, _, first, -, hsearch, -⟩ := Pattern.searchFrom?_of_matches hmatch
  exact ⟨first, hsearch⟩

/-- A link is found on a line if there is an anchor on it in which one can be read. -/
theorem exists_firstLink_iff : (∃ tag front rest, FirstLink line tag front rest) ↔
    ∃ tag, Anchor line tag ∧ ∃ front rest, PathAt tag front rest := by
  constructor
  · rintro ⟨tag, front, rest, h⟩
    exact ⟨tag, h.anchor, front, rest, h.path⟩
  · rintro ⟨tag, hanchor, front, rest, hpath⟩
    obtain ⟨found, hsearch⟩ := exists_search?_of_pathAt hanchor hpath
    obtain ⟨tag', front', rest', h, -⟩ := exists_firstLink_of_search? hsearch
    exact ⟨tag', front', rest', h⟩

/-- No two links on a line are the first. -/
theorem FirstLink.unique {tag' front' rest' : List Char} (h : FirstLink line tag front rest)
    (h' : FirstLink line tag' front' rest') : rest = rest' := by
  obtain ⟨above, name, space, hline, -⟩ := h.anchor
  obtain ⟨above', name', space', hline', -⟩ := h'.anchor
  have htag : tag = tag' := by
    have hlength := Nat.le_antisymm (h'.first h.anchor h.path) (h.first h'.anchor h'.path)
    have hsplit : above ++ ['<', name, space] ++ tag = above' ++ ['<', name', space'] ++ tag' := by
      simpa using hline.symm.trans hline'
    exact List.append_inj_right' hsplit hlength
  subst htag
  have hfront := Nat.le_antisymm (h'.last h.path) (h.last h'.path)
  obtain ⟨href, mark, hsplit, hhref, -⟩ := h.path.stands
  obtain ⟨href', mark', hsplit', hhref', -⟩ := h'.path.stands
  obtain ⟨_, _, _, _, rfl, -⟩ := isHref_iff.mp hhref
  obtain ⟨_, _, _, _, rfl, -⟩ := isHref_iff.mp hhref'
  have hbehind := List.append_inj_right (hsplit.symm.trans hsplit') hfront
  have hmarks := List.append_inj_right hbehind rfl
  simp only [List.cons.injEq, true_and] at hmarks
  exact hmarks.2

/-- The pattern keeps the path of the first link on a line. -/
theorem firstKept?_internalAnchor {path : List Char} : internalAnchor.firstKept? line = some path ↔
    ∃ tag front rest, FirstLink line tag front rest ∧ path = pathOf rest := by
  rw [Pattern.firstKept?, Option.bind_eq_some_iff]
  constructor
  · rintro ⟨found, hsearch, hkept⟩
    obtain ⟨tag, front, rest, h, heq⟩ := exists_firstLink_of_search? hsearch
    rw [heq] at hkept
    exact ⟨tag, front, rest, h, (Option.some.inj hkept).symm⟩
  · rintro ⟨tag, front, rest, h, rfl⟩
    obtain ⟨found, hsearch⟩ := exists_search?_of_pathAt h.anchor h.path
    obtain ⟨tag', front', rest', h', heq⟩ := exists_firstLink_of_search? hsearch
    refine ⟨found, hsearch, ?_⟩
    rw [heq, h.unique h']
    rfl

end Markup

end Checkup
