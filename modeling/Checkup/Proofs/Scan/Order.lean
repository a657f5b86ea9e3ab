import Checkup.Proofs.Scan.Exact
import Mathlib.Data.String.Basic

/-!
# The order of found files

A walk goes by the names in each folder, so it finds what lies in a folder before what lies beside it
under a longer name. As texts the paths may come the other way round, since a few characters, among
them the dot and the hyphen, come before the slash.

* `Path.Overtaken`: a path that comes first by its names and last as a text.
* `Path.joinWith_lt_iff`: there are no other differences between the two orders.
* `Context.sorted_iff_not_overtaken`: when the files of a scan root are in the order of their paths.
* `Context.not_sorted_besideTree`: a folder beside a file of its name.
-/

namespace Checkup

namespace Text

/-- Of two texts the first one is a beginning of the other, or it has a smaller character where they
part. -/
theorem lt_cases {first second : List Char} (h : first < second) :
    (∃ c rest, second = first ++ c :: rest) ∨ ∃ front c d rest rest',
      first = front ++ c :: rest ∧ second = front ++ d :: rest' ∧ c < d := by
  induction first generalizing second with
  | nil =>
    cases second with
    | nil => exact absurd h (List.not_lt_nil _)
    | cons c rest => exact .inl ⟨c, rest, rfl⟩
  | cons a first ih =>
    cases second with
    | nil => exact absurd h (List.not_lt_nil _)
    | cons b second =>
      rcases List.cons_lt_cons_iff.mp h with hlt | ⟨rfl, hlt⟩
      · exact .inr ⟨[], a, b, first, second, rfl, rfl, hlt⟩
      · rcases ih hlt with ⟨c, rest, rfl⟩ | ⟨front, c, d, rest, rest', rfl, rfl, hcd⟩
        · exact .inl ⟨c, rest, rfl⟩
        · exact .inr ⟨a :: front, c, d, rest, rest', rfl, rfl, hcd⟩

theorem append_lt_append_iff {front first second : List Char} :
    front ++ first < front ++ second ↔ first < second := by
  induction front with
  | nil => exact Iff.rfl
  | cons c front ih =>
    rw [List.cons_append, List.cons_append, List.cons_lt_cons_iff]
    exact ⟨fun h => ih.mp (h.resolve_left (lt_irrefl c)).2, fun h => .inr ⟨rfl, ih.mpr h⟩⟩

/-- Texts that part are in the order of the characters at which they do. -/
theorem lt_of_parted {front rest rest' : List Char} {c d : Char} (h : c < d) :
    front ++ c :: rest < front ++ d :: rest' :=
  append_lt_append_iff.mpr (List.cons_lt_cons_iff.mpr (.inl h))

theorem lt_of_longer (front : List Char) (c : Char) (rest : List Char) : front < front ++ c :: rest := by
  have h : front ++ [] < front ++ c :: rest := append_lt_append_iff.mpr (List.nil_lt_cons c rest)
  rwa [List.append_nil] at h

end Text

namespace Path

variable {folder other : String} {names others : List String}

/-- A path leads through a folder, and another one through an entry beside it, whose name goes on with
a character that comes before the slash. -/
inductive Overtaken : List String → List String → Prop
  | beside {folder next other : String} {more below : List String} {c : Char} {rest : List Char}
    (hname : other.toList = folder.toList ++ c :: rest) (hbefore : c < '/') :
    Overtaken (folder :: next :: more) (other :: below)
  | within {folder : String} {names others : List String} (h : Overtaken names others) :
    Overtaken (folder :: names) (folder :: others)

/-- By its names the path comes first. -/
theorem Overtaken.lt (h : Overtaken names others) : names < others := by
  induction h with
  | beside hname _ =>
    refine List.cons_lt_cons_iff.mpr (.inl (String.lt_iff_toList_lt.mpr ?_))
    rw [hname]
    exact Text.lt_of_longer _ _ _
  | within _ ih => exact List.cons_lt_cons_iff.mpr (.inr ⟨rfl, ih⟩)

theorem not_overtaken_self (names : List String) : ¬ Overtaken names names :=
  fun h => List.lt_irrefl _ h.lt

theorem overtaken_same_iff :
    Overtaken (folder :: names) (folder :: others) ↔ Overtaken names others := by
  refine ⟨fun h => ?_, .within⟩
  cases h with
  | beside hname => simp at hname
  | within h => exact h

theorem overtaken_beside_iff (hne : folder ≠ other) : Overtaken (folder :: names) (other :: others) ↔
    names ≠ [] ∧ ∃ c rest, other.toList = folder.toList ++ c :: rest ∧ c < '/' := by
  constructor
  · intro h
    cases h with
    | beside hname hbefore => exact ⟨List.cons_ne_nil _ _, _, _, hname, hbefore⟩
    | within => exact absurd rfl hne
  · rintro ⟨hnames, c, rest, hname, hbefore⟩
    obtain ⟨next, more, rfl⟩ := List.exists_cons_of_ne_nil hnames
    exact .beside hname hbefore

theorem toList_joinWith (first next : String) (rest : List String) :
    (Text.joinWith "/" (first :: next :: rest)).toList =
      first.toList ++ '/' :: (Text.joinWith "/" (next :: rest)).toList := by
  simp [Text.joinWith]

/-- Of two paths that part in the same folder, the one under the smaller name comes first as a text,
unless it is overtaken. -/
theorem joinWith_lt_beside (hother : '/' ∉ other.toList) (hlt : folder < other) :
    Text.joinWith "/" (folder :: names) < Text.joinWith "/" (other :: others) ↔
      ¬ Overtaken (folder :: names) (other :: others) := by
  have hne : folder ≠ other := fun h => String.lt_irrefl _ (h ▸ hlt)
  rw [overtaken_beside_iff hne, String.lt_iff_toList_lt]
  obtain ⟨tail, htail⟩ := Text.prefix_joinWith "/" other others
  rcases Text.lt_cases (String.lt_iff_toList_lt.mp hlt) with
    ⟨c, rest, hname⟩ | ⟨front, c, d, rest, rest', hfolder, hname, hcd⟩
  · have honly : (∃ c' rest', other.toList = folder.toList ++ c' :: rest' ∧ c' < '/') ↔ c < '/' := by
      refine ⟨?_, fun h => ⟨c, rest, hname, h⟩⟩
      rintro ⟨c', rest', hname', h⟩
      have hcons := List.append_cancel_left (hname.symm.trans hname')
      rwa [(List.cons.inj hcons).1]
    rw [honly, ← htail, hname]
    cases names with
    | nil =>
      refine iff_of_true ?_ fun h => h.1 rfl
      rw [Text.joinWith, List.append_assoc]
      exact Text.lt_of_longer _ _ _
    | cons next more =>
      rw [toList_joinWith, List.append_assoc, List.cons_append]
      have hslash : c ≠ '/' := by
        rintro rfl
        exact hother (by rw [hname]; simp)
      rcases lt_trichotomy c '/' with hbefore | heq | hbehind
      · exact iff_of_false (List.lt_asymm (Text.lt_of_parted hbefore))
          fun h => h ⟨List.cons_ne_nil _ _, hbefore⟩
      · exact absurd heq hslash
      · exact iff_of_true (Text.lt_of_parted hbehind) fun h => lt_asymm hbehind h.2
  · obtain ⟨tail', htail'⟩ := Text.prefix_joinWith "/" folder names
    rw [← htail, ← htail', hfolder, hname]
    refine iff_of_true ?_ ?_
    · simpa using Text.lt_of_parted hcd
    · rintro ⟨-, e, more, heq, -⟩
      -- the longer name has the shorter one as a beginning, so they part nowhere
      have hcancel := List.append_cancel_left (heq.trans (List.append_assoc ..))
      have hsame := (List.cons.inj hcancel).1
      exact lt_irrefl c (hsame ▸ hcd)

theorem lt_joinWith (hne : names ≠ []) (hnames : ∀ n ∈ names, IsStep n) :
    [] < (Text.joinWith "/" names).toList := by
  have hchars := mt String.toList_eq_nil_iff.mp (joinWith_ne_empty hne hnames)
  obtain ⟨c, rest, hcons⟩ := List.exists_cons_of_ne_nil hchars
  rw [hcons]
  exact List.nil_lt_cons c rest

/-- The order of paths by their names is that of the texts, unless the first path is overtaken. -/
theorem joinWith_lt_iff (hothers : ∀ n ∈ others, IsStep n) (hlt : names < others) :
    Text.joinWith "/" names < Text.joinWith "/" others ↔ ¬ Overtaken names others := by
  induction names generalizing others with
  | nil =>
    have hne : others ≠ [] := fun h => List.not_lt_nil _ (h ▸ hlt)
    exact iff_of_true (String.lt_iff_toList_lt.mpr (lt_joinWith hne hothers)) fun h => by cases h
  | cons folder names ih =>
    cases others with
    | nil => exact absurd hlt (List.not_lt_nil _)
    | cons other others =>
      rcases List.cons_lt_cons_iff.mp hlt with hless | ⟨rfl, hbelow⟩
      · exact joinWith_lt_beside (hothers other (List.mem_cons_self ..)).no_slash hless
      · have hrest : ∀ n ∈ others, IsStep n := fun n hn => hothers n (List.mem_cons_of_mem _ hn)
        rw [overtaken_same_iff, ← ih hrest hbelow]
        obtain ⟨next, below, rfl⟩ := List.exists_cons_of_ne_nil (l := others)
          fun h => List.not_lt_nil _ (h ▸ hbelow)
        rw [String.lt_iff_toList_lt, String.lt_iff_toList_lt, toList_joinWith]
        cases names with
        | nil => exact iff_of_true (Text.lt_of_longer _ _ _) (lt_joinWith (List.cons_ne_nil _ _) hrest)
        | cons first more =>
          rw [toList_joinWith, Text.append_lt_append_iff, List.cons_lt_cons_iff]
          exact ⟨fun h => (h.resolve_left (lt_irrefl _)).2, fun h => .inr ⟨rfl, h⟩⟩

end Path

namespace Context

variable {c : Context} {t : Tree} {accepts : String → Bool} {depth : Int} {path other : String}

/-- Of two found files the one that is found first has the smaller path, unless it is overtaken. -/
theorem lt_of_found (ht : t.Named) (hpath : path ∈ c.findFilesTo t accepts depth)
    (hother : other ∈ c.findFilesTo t accepts depth) (hlt : Path.steps path < Path.steps other) :
    path < other ↔ ¬ Path.Overtaken (Path.steps path) (Path.steps other) := by
  have hjoin := Path.joinWith_lt_iff (fun _ hn => Path.isStep_of_mem_steps hn) hlt
  rwa [(inside_of_mem_walk ht .empty hpath).spelled, (inside_of_mem_walk ht .empty hother).spelled]
    at hjoin

/-- The files of a scan root are in the order of their paths exactly if none of them is overtaken by
another one. -/
theorem sorted_iff_not_overtaken (ht : t.Named) (c : Context) (accepts : String → Bool)
    (depth : Int) : (c.findFilesTo t accepts depth).Pairwise (· < ·) ↔
      ∀ path ∈ c.findFilesTo t accepts depth, ∀ other ∈ c.findFilesTo t accepts depth,
        ¬ Path.Overtaken (Path.steps path) (Path.steps other) := by
  have hwalk : (c.findFilesTo t accepts depth).Pairwise fun a b => Path.steps a < Path.steps b :=
    List.pairwise_map.mp (pairwise_walk ht c accepts _ _ _)
  constructor
  · intro hsorted path hpath other hother hovertaken
    obtain ⟨i, hi, rfl⟩ := List.getElem_of_mem hpath
    obtain ⟨j, hj, rfl⟩ := List.getElem_of_mem hother
    rcases lt_trichotomy i j with hij | rfl | hji
    · have hlt := List.pairwise_iff_getElem.mp hsorted i j hi hj hij
      exact (lt_of_found ht hpath hother hovertaken.lt).mp hlt hovertaken
    · exact Path.not_overtaken_self _ hovertaken
    · exact List.lt_asymm hovertaken.lt (List.pairwise_iff_getElem.mp hwalk j i hj hi hji)
  · intro hall
    exact hwalk.imp_of_mem fun {a b} ha hb hlt => (lt_of_found ht ha hb hlt).mpr (hall a ha b hb)

/-! ## A folder beside a file of its name -/

/-- A root with a page in a folder, and a file beside the folder. -/
def besideTree (name : String) : Tree := ⟨[(["r"], .folder), (["r", "app"], .folder),
  (["r", "app", "page.tsx"], .file "".toUTF8), (["r", name], .file "".toUTF8)]⟩

/-- The root, seen as a scan root. -/
def besideContext : Context := .forRoot ["r"] default false "" []

theorem findFilesTo_besideTree {name : String} (hname : name = "app.tsx" ∨ name = "app0.tsx") :
    besideContext.findFilesTo (besideTree name) (fun _ => true) 6 = ["app/page.tsx", name] := by
  have hroot : besideContext.root = ["r"] := by decide +kernel
  have hdepth : (6 + 1 : Int).toNat = 7 := rfl
  unfold findFilesTo
  rw [hroot, hdepth, walk]
  have hnames : namesIn (besideTree name) ["r"] = ["app", name] := by
    rcases hname with rfl | rfl <;>
    · rw [namesIn_of_sorted (l := ["r"]) (by decide +kernel) (by decide +kernel)]
      decide +kernel
  rw [hnames]
  rcases hname with rfl | rfl <;> decide +kernel

/-- A digit comes behind the slash, so the files are in order. -/
theorem sorted_besideTree : (besideTree "app0.tsx").Named ∧
    (besideContext.findFilesTo (besideTree "app0.tsx") (fun _ => true) 6).Pairwise (· < ·) := by
  have hnamed : (besideTree "app0.tsx").Named := Tree.named_of_entries (by decide)
  refine ⟨hnamed, (sorted_iff_not_overtaken hnamed _ _ _).mpr ?_⟩
  rw [findFilesTo_besideTree (.inr rfl)]
  have hpage : Path.steps "app/page.tsx" = ["app", "page.tsx"] := by decide
  have hfile : Path.steps "app0.tsx" = ["app0.tsx"] := by decide
  have hslash : ¬ '0' < '/' := by decide
  simp [hpage, hfile, Path.not_overtaken_self, Path.overtaken_beside_iff, hslash]

/-- A dot comes before the slash: the folder is walked before the file that its page comes behind. -/
theorem not_sorted_besideTree :
    besideContext.findFilesTo (besideTree "app.tsx") (fun _ => true) 6 = ["app/page.tsx", "app.tsx"] ∧
      ¬ (besideContext.findFilesTo (besideTree "app.tsx") (fun _ => true) 6).Pairwise (· < ·) := by
  have hfound := findFilesTo_besideTree (.inl rfl)
  refine ⟨hfound, ?_⟩
  rw [hfound]
  decide

end Context

end Checkup
