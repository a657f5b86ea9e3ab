import Checkup.Proofs.Pattern.Covering
import Checkup.Proofs.Repair.Dependencies

/-!
# The name that is read off a message

The message about the version of a workspace begins with the name of the workspace, and the repair
takes for the name what stands before the first blank. It finds the name again if that is one word.
Of a name with blanks it finds nothing, or a word at its beginning that the advice of the message
follows in the name itself: then another dependency is repaired.

* `named_message_iff`: what is read off a message.
* `fix_plainDependency`: what the repair of a finding does.
* `named_message`: a name is read off its message, and its entries are rewritten, if it is one word.
-/

namespace Checkup

open Monorepo (fileIn WorkspaceProtocol.message WorkspaceProtocol.dependencyIn
  WorkspaceProtocol.namedIn? WorkspaceProtocol.names WorkspaceProtocol.fix)

/-- A name begins with another one and what a message says behind a name. -/
def BeginsAsMessage (other name : Label) : Prop :=
  ∃ rest : Label, name = other ++ .text " should use \"workspace:*\"" ++ rest

/-! ## Reading a message -/

theorem behindName_unbordered : Text.Unbordered behindName := by
  unfold behindName
  decide

/-- What is read off a text stands at its start. -/
theorem exists_of_firstKept? {text word : List Char}
    (h : WorkspaceProtocol.dependencyIn.firstKept? text = some word) :
    word ≠ [] ∧ (∀ c ∈ word, Text.isBlank c = false) ∧ ∃ rest, text = word ++ (behindName ++ rest) := by
  obtain ⟨found, hsearch, hkept⟩ := Option.bind_eq_some_iff.mp h
  obtain ⟨front, rest, rfl, hmatch⟩ := Pattern.exists_skip_of_searchFrom? hsearch
  obtain ⟨hstart, word', rest', hfound, hne, hword, heq⟩ := kept_of_dependencyIn hmatch
  obtain rfl : front = [] := List.getLast?_eq_none_iff.mp (Option.or_eq_none_iff.mp hstart).1
  rw [hfound, List.head?_cons] at hkept
  cases hkept
  exact ⟨hne, hword, rest', heq⟩

/-- The front of a message that the reader keeps begins a name as a message does, or is the name. -/
theorem begins_of_front {dependency version : Label} {chars rest : List Char}
    (hblank : ∀ c ∈ chars, Text.isBlank c = false)
    (heq : (WorkspaceProtocol.message dependency version).nearest.toList =
      chars ++ (behindName ++ rest)) :
    chars = dependency.nearest.toList ∨ chars ++ behindName <+: dependency.nearest.toList := by
  rw [nearest_message] at heq
  -- the word ends before the name does, or after it
  rcases List.append_eq_append_iff.mp heq with ⟨mid, hmid, hrest⟩ | ⟨mid, hmid, hrest⟩
  · obtain rfl : mid = [] := by
      cases mid with
      | nil => rfl
      | cons c mid =>
        have hc : c = ' ' := (List.cons.inj hrest).1.symm
        have hblank' := hblank c (hmid ▸ List.mem_append_right _ (List.mem_cons_self ..))
        rw [hc] at hblank'
        exact absurd hblank' (by decide)
    rw [List.append_nil] at hmid
    exact .inl hmid
  · rcases behindName_unbordered.eq_nil_or_prefix hrest with rfl | hbegin
    · rw [List.append_nil] at hmid
      exact .inl hmid.symm
    · obtain ⟨more, rfl⟩ := hbegin
      exact .inr ⟨more, by rw [hmid, List.append_assoc]⟩

/-- Characters that are none of a replacement have the code points that are there. -/
theorem points_of_nearest {points : List Nat} (h : ∀ n ∈ points, Text.IsPoint n) {s : List Char}
    (hs : Text.replacement ∉ s) (heq : points.map Text.nearestChar = s) : points = s.map Char.toNat := by
  subst heq
  rw [List.map_map]
  refine (List.map_id points).symm.trans (List.map_congr_left fun n hn => ?_)
  have hhalf : Text.isHalf n = false := by
    by_contra hne
    rw [Bool.not_eq_false] at hne
    exact hs (List.mem_map.mpr ⟨n, hn, if_pos hne⟩)
  have hchar : Text.nearestChar n = Char.ofNat n := if_neg (Bool.eq_false_iff.mp hhalf)
  exact (congrArg Char.toNat hchar ▸ Text.toNat_ofNat_of_not_half (h n hn) hhalf).symm

/-- A name whose characters begin with those of a front and of the advice begins as a message. -/
theorem beginsAsMessage_take {name : Label} {n : Nat} {more : List Char}
    (h : name.nearest.toList = (name.take n).nearest.toList ++ behindName ++ more) :
    BeginsAsMessage (name.take n) name := by
  refine ⟨.ofPoints ((name.points.drop n).drop behindName.length), Label.points_inj ?_⟩
  have hfront : (name.points.drop n).map Text.nearestChar = behindName ++ more := by
    rw [Label.nearest_take, List.append_assoc] at h
    rw [List.map_drop, ← Label.nearest_toList]
    exact List.append_cancel_left ((List.take_append_drop n _).trans h)
  have hadvice : (name.points.drop n).take behindName.length = behindName.map Char.toNat := by
    refine points_of_nearest
      (fun k hk => Label.point_of_mem (List.mem_of_mem_drop (List.mem_of_mem_take hk))) (by decide) ?_
    rw [List.map_take, hfront, List.take_left]
  have hrest : (Label.ofPoints ((name.points.drop n).drop behindName.length)).points =
      (name.points.drop n).drop behindName.length :=
    Label.points_ofPoints fun k hk =>
      Label.point_of_mem (List.mem_of_mem_drop (List.mem_of_mem_drop hk))
  have htext : (Label.text " should use \"workspace:*\"").points = behindName.map Char.toNat := rfl
  rw [Label.points_append, Label.points_append, Label.points_take, hrest, htext, ← hadvice,
    List.append_assoc, List.take_append_drop, List.take_append_drop]

/-- What is read off the message about a version is the name, or a word with which the name begins as
a message does. -/
theorem named_message_iff {dependency version word : Label} :
    WorkspaceProtocol.namedIn? (WorkspaceProtocol.message dependency version) = some word ↔
      IsWord word ∧ (word = dependency ∨ BeginsAsMessage word dependency) := by
  have hphrase : (Label.text " should use \"workspace:*\"").nearest.toList = behindName := rfl
  constructor
  · intro h
    obtain ⟨chars, hchars, hword⟩ := Option.map_eq_some_iff.mp h
    obtain ⟨hne, hblank, rest, heq⟩ := exists_of_firstKept? hchars
    have hnearest : word.nearest.toList = chars := by
      rw [← hword, Label.nearest_take, heq, List.take_left]
    refine ⟨⟨ne_empty_iff.mpr (hnearest.symm ▸ hne), hnearest.symm ▸ hblank⟩, ?_⟩
    rcases begins_of_front hblank heq with hname | ⟨more, hmore⟩
    · exact .inl (hword.symm.trans (take_message hname))
    · have hfront : word = dependency.take chars.length := by
        refine Label.points_inj ?_
        rw [← hword, Label.points_take, Label.points_take, message_points, List.take_append_of_le_length]
        rw [← length_nearest, ← hmore, List.append_assoc, List.length_append]
        exact Nat.le_add_right _ _
      have hbegins : dependency.nearest.toList =
          (dependency.take chars.length).nearest.toList ++ behindName ++ more := by
        rw [Label.nearest_take, ← hmore, List.append_assoc, List.take_left, List.append_assoc]
      rw [hfront]
      exact .inr (beginsAsMessage_take hbegins)
  · rintro ⟨hword, rfl | ⟨rest, rfl⟩⟩
    · exact namedIn?_message hword version
    · have hmessage : WorkspaceProtocol.message (word ++ .text " should use \"workspace:*\"" ++ rest)
          version = word ++ (.text " should use \"workspace:*\"" ++ (rest ++
            .text " should use \"workspace:*\" instead of \"" ++ version ++ .text "\"")) :=
        Label.points_inj
          (by simp only [WorkspaceProtocol.message, Label.points_append, List.append_assoc])
      unfold WorkspaceProtocol.namedIn?
      rw [hmessage, Label.nearest_append, Label.nearest_append, hphrase,
        firstKept?_dependencyIn (ne_empty_iff.mp hword.1) hword.2, Option.map_some, length_nearest,
        Label.take_append]

/-! ## What is repaired -/

variable {c : Context} {t : Tree}

/-- The repair of a finding localizes the dependency that is read off its message, if that is the name
of a workspace. -/
theorem fix_plainDependency (w : Workspace) (dependency version : Label) :
    WorkspaceProtocol.fix c t (plainDependency w dependency version) =
      match (WorkspaceProtocol.namedIn? (WorkspaceProtocol.message dependency version)).filter
        (WorkspaceProtocol.names c).contains with
      | none => .unchanged t
      | some word => c.rewrite t (fileIn w "package.json") (.localize word) :=
  fix_protocol (plainDependency w dependency version) t

/-- The name in a message is read back, and the repair of the finding rewrites the entries of that
dependency, if and only if the name is one word. Otherwise nothing is repaired, or another dependency,
whose name the reported one begins with. -/
theorem named_message (dependency version : Label) :
    (WorkspaceProtocol.namedIn? (WorkspaceProtocol.message dependency version) = some dependency ↔
      IsWord dependency) ∧
    (IsWord dependency → ∀ c t w, dependency ∈ WorkspaceProtocol.names c →
      WorkspaceProtocol.fix c t (plainDependency w dependency version) =
        c.rewrite t (fileIn w "package.json") (.localize dependency)) ∧
    (¬ IsWord dependency → ∀ c t w,
      WorkspaceProtocol.fix c t (plainDependency w dependency version) = .unchanged t ∨
      ∃ other ∈ WorkspaceProtocol.names c, other ≠ dependency ∧ BeginsAsMessage other dependency ∧
        WorkspaceProtocol.fix c t (plainDependency w dependency version) =
          c.rewrite t (fileIn w "package.json") (.localize other)) := by
  refine ⟨⟨fun h => (named_message_iff.mp h).1, fun h => named_message_iff.mpr ⟨h, .inl rfl⟩⟩,
    fun hword c t w hname => ?_, fun hword c t w => ?_⟩
  · rw [fix_plainDependency, named_message_iff.mpr ⟨hword, .inl rfl⟩, Option.filter_some,
      if_pos (List.contains_iff_mem.mpr hname)]
  · rw [fix_plainDependency]
    cases hfound : (WorkspaceProtocol.namedIn?
        (WorkspaceProtocol.message dependency version)).filter (WorkspaceProtocol.names c).contains with
    | none => exact .inl rfl
    | some other =>
      obtain ⟨hnamed, hname⟩ := Option.filter_eq_some_iff.mp hfound
      obtain ⟨hother, hname'⟩ := named_message_iff.mp hnamed
      have hne : other ≠ dependency := fun heq => hword (heq ▸ hother)
      exact .inr ⟨other, List.contains_iff_mem.mp hname, hne, hname'.resolve_left hne, rfl⟩

/-- Nothing is read off the message about a name with a blank, and another name off one that begins as
a message does. -/
theorem named_spaced : WorkspaceProtocol.namedIn? (WorkspaceProtocol.message "my ui" "1") = none ∧
    WorkspaceProtocol.namedIn?
      (WorkspaceProtocol.message "a should use \"workspace:*\" b" "1") = some (.text "a") := by
  decide +kernel

end Checkup
