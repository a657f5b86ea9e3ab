/-!
# Association lists that keep their order

A list of pairs read by its first entry for a key. `put` gives a key a value at the key's place, or
at the end of the list.

* `lookup_put`: the key reads back as it was put, and every other key as before.
* `keys_put`: the order of the keys changes only by a new one at the end.
-/

namespace Checkup.Association

variable {κ α : Type} [BEq κ] [LawfulBEq κ] [DecidableEq κ]

/-- Gives a key a value: in its place if it is there, at the end otherwise. -/
def put : List (κ × α) → κ → α → List (κ × α)
  | [], key, value => [(key, value)]
  | (k, v) :: rest, key, value =>
    if k = key then (k, value) :: rest else (k, v) :: put rest key value

omit [DecidableEq κ] in
theorem lookup_cons_of_ne {key k : κ} (h : key ≠ k) (v : α) (rest : List (κ × α)) :
    ((k, v) :: rest).lookup key = rest.lookup key := by
  have hb : (key == k) = false := by simp [h]
  rw [List.lookup_cons, hb]

omit [DecidableEq κ] in
theorem mem_of_lookup {entries : List (κ × α)} {key : κ} {value : α}
    (h : entries.lookup key = some value) : (key, value) ∈ entries := by
  obtain ⟨first, rest, rfl, -⟩ := List.lookup_eq_some_iff.mp h
  simp

theorem lookup_cons_eq (key k : κ) (v : α) (rest : List (κ × α)) :
    ((k, v) :: rest).lookup key = if key = k then some v else rest.lookup key := by
  by_cases h : key = k
  · simp [h]
  · rw [lookup_cons_of_ne h, if_neg h]

theorem lookup_put (entries : List (κ × α)) (key other : κ) (value : α) :
    (put entries key value).lookup other =
      if other = key then some value else entries.lookup other := by
  induction entries with
  | nil => simp [put, lookup_cons_eq]
  | cons entry rest ih =>
    obtain ⟨k, v⟩ := entry
    by_cases hk : k = key
    · subst hk
      simp only [put, if_true, lookup_cons_eq]
      split <;> rfl
    · simp only [put, hk, if_false, lookup_cons_eq, ih]
      by_cases ho : other = k
      · subst ho
        simp [hk]
      · simp [ho]

theorem keys_put (entries : List (κ × α)) (key : κ) (value : α) :
    (put entries key value).map Prod.fst =
      if key ∈ entries.map Prod.fst then entries.map Prod.fst
      else entries.map Prod.fst ++ [key] := by
  induction entries with
  | nil => simp [put]
  | cons entry rest ih =>
    obtain ⟨k, v⟩ := entry
    by_cases hk : k = key
    · subst hk
      simp [put]
    · have hk' : ¬ key = k := fun h => hk h.symm
      simp only [put, hk, if_false, List.map_cons, ih, List.mem_cons, hk', false_or]
      by_cases hm : key ∈ List.map Prod.fst rest
      · simp only [hm, if_true]
      · simp only [hm, if_false, List.cons_append]

end Checkup.Association
