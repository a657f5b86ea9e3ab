import Checkup.Proofs.Tree.Steps

/-!
# How paths are spelled

A path that is put together of steps has no slashes around it, and its names can be told from each
other by the slashes between them.

* `eq_of_append_slash`: the name before a slash.
* `trim_joinWith`, `trim_relative`: names and paths with nothing to trim around them.
* `relative_append`: one path below another.
-/

namespace Checkup

namespace Text

theorem trim_eq_self {p : Char → Bool} {text : String}
    (hhead : ∀ c ∈ text.toList.head?, p c = false) (hlast : ∀ c ∈ text.toList.getLast?, p c = false) :
    trim p text = text := by
  have hdrop : ∀ s : List Char, (∀ c ∈ s.head?, p c = false) → s.dropWhile p = s := by
    intro s hs
    cases s with
    | nil => rfl
    | cons c rest => exact List.dropWhile_cons_of_neg (by rw [hs c rfl]; exact Bool.false_ne_true)
  unfold trim dropLeading dropTrailing
  rw [hdrop _ hhead, hdrop _ (List.head?_reverse ▸ hlast), List.reverse_reverse, String.ofList_toList]

theorem prefix_joinWith (sep name : String) (rest : List String) :
    name.toList <+: (joinWith sep (name :: rest)).toList := by
  cases rest with
  | nil => exact List.prefix_refl _
  | cons next rest =>
    rw [joinWith, String.append_assoc, String.toList_append]
    exact List.prefix_append _ _

theorem suffix_joinWith (sep : String) {names : List String} {name : String}
    (h : name ∈ names.getLast?) : name.toList <:+ (joinWith sep names).toList := by
  induction names with
  | nil => cases h
  | cons first rest ih =>
    cases rest with
    | nil =>
      cases h
      exact List.suffix_refl _
    | cons next rest =>
      rw [joinWith, String.toList_append]
      exact (ih h).trans (List.suffix_append _ _)

end Text

namespace Path

/-! ## Names between slashes -/

theorem eq_of_append_slash {name other rest rest' : String} (hn : '/' ∉ name.toList)
    (ho : '/' ∉ other.toList) (h : name ++ "/" ++ rest = other ++ "/" ++ rest') : name = other := by
  have hpieces := congrArg (Text.pieces '/') h
  rw [Path.pieces_append_slash, Path.pieces_append_slash, Path.pieces_of_no_slash hn,
    Path.pieces_of_no_slash ho] at hpieces
  exact (List.cons.inj hpieces).1

theorem ne_append_slash {name : String} (hn : '/' ∉ name.toList) (other rest : String) :
    name ≠ other ++ "/" ++ rest := by
  rintro rfl
  exact hn (by simp)

theorem append_slash_ne_empty (first second : String) : first ++ "/" ++ second ≠ "" := by
  intro h
  have hlist := congrArg String.toList h
  simp at hlist

/-! ## Paths of steps -/

variable {names : List String}

theorem joinWith_ne_empty (hne : names ≠ []) (hn : ∀ name ∈ names, IsStep name) :
    Text.joinWith "/" names ≠ "" := by
  cases names with
  | nil => exact absurd rfl hne
  | cons name rest =>
    intro h
    have hprefix := Text.prefix_joinWith "/" name rest
    rw [h] at hprefix
    exact (hn name (List.mem_cons_self ..)).ne_empty
      (String.toList_eq_nil_iff.mp (List.prefix_nil.mp hprefix))

theorem relative_eq (hne : names ≠ []) : relative names = Text.joinWith "/" names := by
  unfold relative
  cases names with
  | nil => exact absurd rfl hne
  | cons name rest => rfl

/-- Names are not trimmed if none of their characters would be. -/
theorem trim_joinWith {p : Char → Bool} (hne : names ≠ []) (hn : ∀ name ∈ names, name ≠ "")
    (hp : ∀ name ∈ names, ∀ c ∈ name.toList, p c = false) :
    Text.trim p (Text.joinWith "/" names) = Text.joinWith "/" names := by
  have hchars : ∀ name ∈ names, name.toList ≠ [] := fun name hname hnil =>
    hn name hname (String.toList_eq_nil_iff.mp hnil)
  refine Text.trim_eq_self (fun c hc => ?_) fun c hc => ?_
  · obtain ⟨name, rest, rfl⟩ := List.exists_cons_of_ne_nil hne
    obtain ⟨more, hmore⟩ := Text.prefix_joinWith "/" name rest
    rw [← hmore, List.head?_append_of_ne_nil _ (hchars name (List.mem_cons_self ..))] at hc
    exact hp name (List.mem_cons_self ..) c (List.mem_of_mem_head? hc)
  · have hlast := List.getLast?_eq_getLast_of_ne_nil hne
    have hmem := List.getLast_mem hne
    obtain ⟨more, hmore⟩ := Text.suffix_joinWith "/" (Option.mem_def.mpr hlast)
    rw [← hmore, List.getLast?_append_of_ne_nil _ (hchars _ hmem)] at hc
    exact hp _ hmem c (List.mem_of_getLast? hc)

/-- A path of steps has no slashes around it. -/
theorem trim_relative (hne : names ≠ []) (hn : ∀ name ∈ names, IsStep name) :
    Text.trim (· == '/') (relative names) = relative names := by
  have hslash : ∀ name ∈ names, ∀ c ∈ name.toList, (c == '/') = false := by
    intro name hname c hc
    refine beq_eq_false_iff_ne.mpr ?_
    rintro rfl
    exact (hn name hname).no_slash hc
  rw [relative_eq hne]
  exact trim_joinWith hne (fun name hname => (hn name hname).ne_empty) hslash

theorem relative_append {first second : List String} (hf : first ≠ []) (hs : second ≠ []) :
    relative (first ++ second) = relative first ++ "/" ++ relative second := by
  rw [relative_eq hf, relative_eq hs, relative_eq (List.append_ne_nil_of_left_ne_nil hf _)]
  induction first with
  | nil => exact absurd rfl hf
  | cons name rest ih =>
    cases rest with
    | nil =>
      obtain ⟨next, more, rfl⟩ := List.exists_cons_of_ne_nil hs
      rfl
    | cons next rest =>
      have hstep := ih (List.cons_ne_nil _ _)
      rw [List.cons_append] at hstep
      rw [List.cons_append, List.cons_append, Text.joinWith, hstep, Text.joinWith]
      simp only [String.append_assoc]

end Path

end Checkup
