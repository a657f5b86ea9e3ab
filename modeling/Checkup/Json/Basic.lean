import Checkup.Association
import Checkup.Number.Binary64
import Checkup.Text.Label

/-!
# JSON values

Objects keep their members in order and name each member once: `put` gives a member that is already
there a new value at its old place.

* `get?_put`: a member reads back as it was put, and every other one as before.
* `keys_put`: the order of the members changes only by a new one at the end.
* `get?_merge`: the second of two merged objects decides where both have a member.
* `nesting_arr_le_iff`, `nesting_obj_le_iff`: a bound on the nesting of a container is one for its
  parts.
-/

namespace Checkup

open Number (Binary64)

/-- A JSON value. -/
inductive Json
  | null
  | bool (b : Bool)
  | int (n : Int)
  | float (x : Binary64)
  | str (s : String)
  /-- A string that is no text, by its code points: half of a UTF-16 pair stands alone in it. -/
  | loose (points : List Nat)
  | arr (items : List Json)
  | obj (members : List (Label × Json))
  deriving Repr, Inhabited, BEq

namespace Json

/-- The members of an object, in order. -/
abbrev Members := List (Label × Json)

namespace Members

/-- The value of the member with a name. -/
def get? (members : Members) (key : Label) : Option Json := members.lookup key

/-- The object has a member with this name. -/
def has (members : Members) (key : Label) : Bool := (members.get? key).isSome

/-- The names of the members, in order. -/
def keys (members : Members) : List Label := members.map Prod.fst

/-- Gives a member a value: in its place if it is there, at the end otherwise. -/
def put (members : Members) (key : Label) (value : Json) : Members :=
  Association.put members key value

/-- The members of `first` with those of `second` put into them in order. -/
def merge (first second : Members) : Members :=
  second.foldl (fun merged member => merged.put member.1 member.2) first

theorem get?_nil (key : Label) : get? [] key = none := rfl

theorem get?_cons (k key : Label) (v : Json) (rest : Members) :
    get? ((k, v) :: rest) key = if key = k then some v else get? rest key :=
  Association.lookup_cons_eq key k v rest

theorem get?_put (members : Members) (key name : Label) (value : Json) :
    (members.put key value).get? name = if name = key then some value else members.get? name :=
  Association.lookup_put members key name value

theorem keys_put (members : Members) (key : Label) (value : Json) :
    (members.put key value).keys =
      if key ∈ members.keys then members.keys else members.keys ++ [key] :=
  Association.keys_put members key value

theorem get?_merge (first : Members) {second : Members} (h : second.keys.Nodup) (name : Label) :
    (first.merge second).get? name = (second.get? name).or (first.get? name) := by
  induction second generalizing first with
  | nil => simp [merge, get?_nil]
  | cons member rest ih =>
    obtain ⟨key, value⟩ := member
    have h' : key ∉ keys rest ∧ (keys rest).Nodup := List.nodup_cons.mp h
    have hm : (first.merge ((key, value) :: rest)) = (first.put key value).merge rest := rfl
    rw [hm, ih _ h'.2, get?_put, get?_cons]
    by_cases hn : name = key
    · subst hn
      have hl : get? rest name = none := by
        rw [get?, List.lookup_eq_none_iff]
        intro other hother
        have hne : name ≠ other.1 := fun he => h'.1 (he ▸ List.mem_map_of_mem hother)
        simp [hne]
      simp [hl]
    · simp [hn]

end Members

/-- The members of an object; nothing for any other value. -/
def members? : Json → Option Members
  | .obj members => some members
  | _ => none

/-- A string. -/
def ofLabel : Label → Json
  | .text s => .str s
  | .loose points _ => .loose points

/-- The string with some code points. -/
def ofPoints (points : List Nat) : Json := ofLabel (.ofPoints points)

/-- What a string value is. -/
def text? : Json → Option Label
  | .str s => some (.text s)
  | .loose points => some (.ofPoints points)
  | _ => none

/-- What a string value is that is not empty. -/
def label? (value : Json) : Option Label := value.text?.filter (· ≠ .text "")

/-- The value counts as given: it is not null, false, zero or empty. -/
def isGiven : Json → Bool
  | .null => false
  | .bool b => b
  | .int n => n != 0
  | .float x => !x.isZero
  | .str s => s != ""
  | .loose points => !points.isEmpty
  | .arr items => !items.isEmpty
  | .obj members => !members.isEmpty

mutual

/-- How deep arrays and objects are nested in a value. -/
def nesting : Json → Nat
  | .arr items => nestingOfItems items + 1
  | .obj members => nestingOfMembers members + 1
  | _ => 0

/-- The greatest nesting of some values. -/
def nestingOfItems : List Json → Nat
  | [] => 0
  | value :: rest => max value.nesting (nestingOfItems rest)

/-- The greatest nesting of the values of some members. -/
def nestingOfMembers : List (Label × Json) → Nat
  | [] => 0
  | (_, value) :: rest => max value.nesting (nestingOfMembers rest)

end

/-- The greatest nesting that can be read and written. The interpreter allows 1000 nested calls,
reading takes one for every array or object, and the calls up to the reader take about ten. -/
def maxNesting : Nat := 990

/-- A member of a value that is an object. -/
def member? (value : Json) (key : Label) : Option Json := value.members?.bind (·.get? key)

theorem nesting_arr_pos {items : List Json} : 0 < nesting (.arr items) := Nat.succ_pos _

theorem nesting_obj_pos {members : Members} : 0 < nesting (.obj members) := Nat.succ_pos _

theorem nesting_arr_le_iff {items : List Json} {n : Nat} :
    nesting (.arr items) ≤ n + 1 ↔ ∀ v ∈ items, nesting v ≤ n := by
  rw [nesting, Nat.add_le_add_iff_right]
  induction items with
  | nil => simp [nestingOfItems]
  | cons v rest ih => rw [nestingOfItems, Nat.max_le, List.forall_mem_cons, ih]

theorem nesting_obj_le_iff {members : Members} {n : Nat} :
    nesting (.obj members) ≤ n + 1 ↔ ∀ m ∈ members, nesting m.2 ≤ n := by
  rw [nesting, Nat.add_le_add_iff_right]
  induction members with
  | nil => simp [nestingOfMembers]
  | cons m rest ih => rw [nestingOfMembers, Nat.max_le, List.forall_mem_cons, ih]

end Json

end Checkup
