import Checkup.Text.Search
import Checkup.Text.Units

/-!
# Labels

Names, versions and messages come from files in which an escape may name half of a UTF-16 pair. A
label is a sequence of code points that need be no text for that reason. An operation on labels that
are texts is the one on texts.

* `ofPoints_points`: a label is known by its code points.
* `points_append`, `points_take`: what is put together keeps its code points, and so does a front.
* `contains_iff`: a text occurs in a label if its code points do.
* `joinWith_text`: texts are joined to a text.
-/

namespace Checkup

/-- Code points that are no text: half of a UTF-16 pair stands alone among them. -/
def Text.areLoose (points : List Nat) : Bool :=
  points.all (fun n => decide (IsPoint n)) && points.any isHalf

/-- A sequence of code points. -/
inductive Label
  | text (s : String)
  /-- No text, by its code points. -/
  | loose (points : List Nat) (h : Text.areLoose points = true)
  deriving DecidableEq, Repr, Inhabited

instance : Coe String Label := ⟨.text⟩

namespace Label

/-- The label with some code points. -/
def ofPoints (points : List Nat) : Label :=
  if h : Text.areLoose points = true then .loose points h
  else .text (String.ofList (points.map Char.ofNat))

/-- The code points of a text. -/
def pointsOf (s : String) : List Nat := s.toList.map Char.toNat

/-- The code points of a label. -/
def points : Label → List Nat
  | .text s => pointsOf s
  | .loose points _ => points

/-- The label is a text. -/
def isText : Label → Bool
  | .text _ => true
  | .loose .. => false

/-- The text of a label, the nearest one if it is no text. -/
def nearest : Label → String
  | .text s => s
  | .loose points _ => String.ofList (Text.nearestText points)

/-- A label behind another one. -/
def append : Label → Label → Label
  | .text a, .text b => .text (a ++ b)
  | a, b => .ofPoints (a.points ++ b.points)

instance : Append Label := ⟨append⟩

/-- The labels in order with `sep` between neighbours. -/
def joinWith (sep : String) : List Label → Label
  | [] => .text ""
  | [l] => l
  | l :: next :: rest => l ++ .text sep ++ joinWith sep (next :: rest)

/-- The labels one behind the other. -/
def concat (labels : List Label) : Label := labels.foldr append (.text "")

/-- The label begins with a text. -/
def startsWith (l : Label) (part : String) : Bool :=
  match l with
  | .text s => Text.startsWith s part
  | .loose points _ => (pointsOf part).isPrefixOf points

/-- A text occurs in the label. -/
def contains (l : Label) (part : String) : Bool :=
  match l with
  | .text s => Text.contains s part
  | .loose points _ => Text.occurs (pointsOf part) points

/-- The first code points of a label. -/
def take (n : Nat) (l : Label) : Label := .ofPoints (l.points.take n)

/-- The label up to a character, or the whole label if the character is not in it. -/
def upTo (stop : Char) : Label → Label
  | .text s => .text (((Text.pieces stop s).head?).getD "")
  | .loose points _ => .ofPoints (points.takeWhile (· != stop.toNat))

/-- The label without blanks at either end. -/
def trimBlank : Label → Label
  | .text s => .text (Text.trimBlank s)
  | .loose points _ =>
    let isBlank := fun n => Text.isBlank (Text.nearestChar n)
    .ofPoints ((points.dropWhile isBlank).reverse.dropWhile isBlank).reverse

/-- The character that stands for a code point where only texts are shown: half of a pair is shown
by its number. -/
def shownPoint (n : Nat) : List Char :=
  if Text.isHalf n then '\\' :: 'u' :: (Nat.toDigits 16 n) else [Char.ofNat n]

/-- The label where only texts are shown. -/
def shown : Label → String
  | .text s => s
  | .loose points _ => String.ofList (points.flatMap shownPoint)

/-! ## Labels by their code points -/

theorem areLoose_iff {points : List Nat} : Text.areLoose points = true ↔
    (∀ n ∈ points, Text.IsPoint n) ∧ ∃ n ∈ points, Text.isHalf n = true := by
  rw [Text.areLoose, Bool.and_eq_true, List.all_eq_true, List.any_eq_true]
  simp only [decide_eq_true_eq]

theorem point_of_mem {l : Label} {n : Nat} (h : n ∈ l.points) : Text.IsPoint n := by
  cases l with
  | text s =>
    obtain ⟨c, -, rfl⟩ := List.mem_map.mp h
    exact Text.isPoint_toNat c
  | loose points hloose => exact (areLoose_iff.mp hloose).1 n h

theorem points_ofPoints {points : List Nat} (h : ∀ n ∈ points, Text.IsPoint n) :
    (ofPoints points).points = points := by
  unfold ofPoints
  split
  · rfl
  · rename_i hloose
    rw [areLoose_iff, not_and] at hloose
    have hround : ∀ n ∈ points, (Char.toNat ∘ Char.ofNat) n = n := fun n hn =>
      Text.toNat_ofNat_of_not_half (h n hn) (Bool.eq_false_iff.mpr fun hhalf => hloose h ⟨n, hn, hhalf⟩)
    rw [Label.points, pointsOf, String.toList_ofList, List.map_map, List.map_congr_left hround]
    exact List.map_id points

theorem ofPoints_pointsOf (s : String) : ofPoints (pointsOf s) = .text s := by
  have hround : (Char.ofNat ∘ Char.toNat) = id := funext Char.ofNat_toNat
  have hloose : ¬ Text.areLoose (pointsOf s) = true := by
    rw [areLoose_iff]
    rintro ⟨-, n, hn, hhalf⟩
    obtain ⟨c, -, rfl⟩ := List.mem_map.mp hn
    rw [Text.isHalf_toNat c] at hhalf
    cases hhalf
  rw [ofPoints, dif_neg hloose, pointsOf, List.map_map, hround, List.map_id, String.ofList_toList]

/-- A label is known by its code points. -/
theorem ofPoints_points (l : Label) : ofPoints l.points = l := by
  cases l with
  | text s => exact ofPoints_pointsOf s
  | loose points h => exact dif_pos h

theorem points_inj {a b : Label} (h : a.points = b.points) : a = b := by
  rw [← ofPoints_points a, h, ofPoints_points]

theorem nearest_toList (l : Label) : l.nearest.toList = l.points.map Text.nearestChar := by
  cases l with
  | text s =>
    have hround : Text.nearestChar ∘ Char.toNat = id := by
      funext c
      simp [Text.nearestChar, Text.isHalf_toNat]
    rw [points, pointsOf, List.map_map, hround, List.map_id, nearest]
  | loose points h => exact String.toList_ofList

@[simp]
theorem nearest_text (s : String) : (Label.text s).nearest = s := rfl

@[simp]
theorem text_append (a b : String) : (Label.text a ++ Label.text b) = .text (a ++ b) := rfl

theorem points_append (a b : Label) : (a ++ b).points = a.points ++ b.points := by
  have hpoints : (ofPoints (a.points ++ b.points)).points = a.points ++ b.points :=
    points_ofPoints fun n hn => (List.mem_append.mp hn).elim point_of_mem point_of_mem
  cases a with
  | text a =>
    cases b with
    | text b => simp [points, pointsOf]
    | loose bs hb => exact hpoints
  | loose as ha => exact hpoints

theorem nearest_append (a b : Label) :
    (a ++ b).nearest.toList = a.nearest.toList ++ b.nearest.toList := by
  rw [nearest_toList, nearest_toList, nearest_toList, points_append, List.map_append]

theorem points_take (n : Nat) (l : Label) : (l.take n).points = l.points.take n :=
  points_ofPoints fun _ hn => point_of_mem (List.mem_of_mem_take hn)

theorem nearest_take (n : Nat) (l : Label) : (l.take n).nearest.toList = l.nearest.toList.take n := by
  rw [nearest_toList, nearest_toList, points_take, List.map_take]

/-- What is put behind a label is cut off again. -/
theorem take_append (a b : Label) : (a ++ b).take a.points.length = a :=
  points_inj (by rw [points_take, points_append, List.take_left])

/-- A text occurs in a label if its code points do. -/
theorem contains_iff {l : Label} {part : String} :
    l.contains part = true ↔ pointsOf part <:+: l.points := by
  cases l with
  | loose points h => exact Text.occurs_iff
  | text s =>
    refine Text.contains_iff.trans ⟨fun h => h.map Char.toNat, ?_⟩
    rintro ⟨front, back, h⟩
    obtain ⟨left, right, hs, hleft, -⟩ := List.map_eq_append_iff.mp h.symm
    obtain ⟨before, found, rfl, -, hfound⟩ := List.map_eq_append_iff.mp hleft
    obtain rfl := (List.map_inj_right fun _ _ => Char.toNat_inj.mp).mp hfound
    exact ⟨before, right, hs.symm⟩

theorem joinWith_text (sep : String) (texts : List String) :
    joinWith sep (texts.map .text) = .text (Text.joinWith sep texts) := by
  induction texts with
  | nil => rfl
  | cons s rest ih =>
    cases rest with
    | nil => rfl
    | cons next rest => exact congrArg (Label.text s ++ Label.text sep ++ ·) ih

end Label

end Checkup
