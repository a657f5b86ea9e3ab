import Mathlib.Data.List.Forall2
import Mathlib.Tactic.Push

/-!
# Steps that can fail

When a computation of several steps comes to a result, so did its steps.

* `Except.bind_eq_ok`, `Except.mapError_eq_ok`: one step after another, and a step with its faults
  told differently.
* `Except.mapM_eq_ok`, `Except.mapM_filter`, `Except.mapM_of_ite`: one step for every element of a
  list.
* `Except.returns_bind`: when several steps come to a result.
* `Except.mem_ok_iff`, `Except.mem_flatten_mapM_iff`: the elements of a list that a computation comes
  to.
-/

namespace Except

variable {ε ε' α β : Type}

theorem bind_eq_ok {x : Except ε α} {f : α → Except ε β} {b : β} :
    x >>= f = .ok b ↔ ∃ a, x = .ok a ∧ f a = .ok b := by
  cases x with
  | error e => exact iff_of_false (fun h => by cases h) fun ⟨_, h, _⟩ => by cases h
  | ok a =>
    constructor
    · exact fun h => ⟨a, rfl, h⟩
    · rintro ⟨_, heq, h⟩
      cases heq
      exact h

theorem mapError_eq_ok {x : Except ε α} {f : ε → ε'} {a : α} :
    x.mapError f = .ok a ↔ x = .ok a := by
  cases x with
  | error e => exact iff_of_false (fun h => by cases h) fun h => by cases h
  | ok b => exact Iff.intro (fun h => by cases h; rfl) fun h => by cases h; rfl

/-- The computation comes to a result. -/
def Returns (x : Except ε α) : Prop := ∃ a, x = .ok a

theorem returns_bind {x : Except ε α} {f : α → Except ε β} :
    (x >>= f).Returns ↔ ∃ a, x = .ok a ∧ (f a).Returns := by
  constructor
  · rintro ⟨b, h⟩
    obtain ⟨a, ha, hb⟩ := bind_eq_ok.mp h
    exact ⟨a, ha, b, hb⟩
  · rintro ⟨a, ha, b, hb⟩
    exact ⟨b, bind_eq_ok.mpr ⟨a, ha, hb⟩⟩

/-- Every element gives an element of the result, in order. -/
theorem mapM_eq_ok {f : α → Except ε β} {l : List α} {r : List β} :
    l.mapM f = .ok r ↔ List.Forall₂ (fun a b => f a = .ok b) l r := by
  induction l generalizing r with
  | nil =>
    rw [List.mapM_nil, List.forall₂_nil_left_iff]
    exact Iff.intro (fun h => by cases h; rfl) fun h => by rw [h]; rfl
  | cons a rest ih =>
    rw [List.mapM_cons, bind_eq_ok]
    constructor
    · rintro ⟨b, hb, hrest⟩
      obtain ⟨more, hmore, heq⟩ := bind_eq_ok.mp hrest
      cases heq
      exact .cons hb (ih.mp hmore)
    · intro h
      cases h with
      | cons hb hrest => exact ⟨_, hb, bind_eq_ok.mpr ⟨_, ih.mpr hrest, rfl⟩⟩

/-! ## Elements of a result -/

/-- What is in the list that a computation comes to; nothing is in a fault. -/
instance membershipOk : Membership α (Except ε (List α)) := ⟨fun x a => ∃ l, x = .ok l ∧ a ∈ l⟩

theorem mem_ok_iff {l : List α} {a : α} : a ∈ (.ok l : Except ε (List α)) ↔ a ∈ l :=
  ⟨fun ⟨_, heq, h⟩ => Except.ok.inj heq ▸ h, fun h => ⟨l, rfl, h⟩⟩

theorem not_mem_error {e : ε} {a : α} : a ∉ (.error e : Except ε (List α)) :=
  fun ⟨_, heq, _⟩ => by cases heq

instance decidableMemOk [DecidableEq α] (x : Except ε (List α)) (a : α) : Decidable (a ∈ x) :=
  match x with
  | .ok _ => decidable_of_iff _ mem_ok_iff.symm
  | .error _ => isFalse not_mem_error

theorem mem_of_mem_ok {x : Except ε (List α)} {l : List α} (h : x = .ok l) {a : α} :
    a ∈ l ↔ a ∈ x := by
  rw [h, mem_ok_iff]

/-- What is kept of the elements gives what is kept of the result. -/
theorem mapM_filter {f : α → Except ε β} {keep : α → Bool} {kept : β → Bool} {l : List α} {r : List β}
    (h : l.mapM f = .ok r) (hkeep : ∀ a ∈ l, ∀ b, f a = .ok b → kept b = keep a) :
    (l.filter keep).mapM f = .ok (r.filter kept) := by
  rw [mapM_eq_ok] at h ⊢
  induction h with
  | nil => exact .nil
  | @cons a b rest more hb _ ih =>
    obtain ⟨ha, hrest⟩ := List.forall_mem_cons.mp hkeep
    rw [List.filter_cons, List.filter_cons, ha b hb]
    split
    · exact .cons hb (ih hrest)
    · exact ih hrest

/-- What stands on the right of related lists is related to something on the left. -/
theorem exists_of_forall₂ {R : α → β → Prop} {l : List α} {r : List β} (h : List.Forall₂ R l r) {b : β}
    (hb : b ∈ r) : ∃ a ∈ l, R a b := by
  induction h with
  | nil => cases hb
  | cons hfirst _ ih =>
    rcases List.mem_cons.mp hb with rfl | hb
    · exact ⟨_, List.mem_cons_self .., hfirst⟩
    · obtain ⟨a, ha, hrel⟩ := ih hb
      exact ⟨a, List.mem_cons_of_mem _ ha, hrel⟩

theorem mem_of_mapM {f : α → Except ε β} {l : List α} {r : List β} (h : l.mapM f = .ok r) {b : β}
    (hb : b ∈ r) : ∃ a ∈ l, f a = .ok b := exists_of_forall₂ (mapM_eq_ok.mp h) hb

theorem mem_mapM {f : α → Except ε β} {l : List α} {r : List β} (h : l.mapM f = .ok r) {a : α}
    (ha : a ∈ l) : ∃ b ∈ r, f a = .ok b := exists_of_forall₂ (mapM_eq_ok.mp h).flip ha

theorem exists_mapM {f : α → Except ε β} {l : List α} (h : ∀ a ∈ l, ∃ b, f a = .ok b) :
    ∃ r, l.mapM f = .ok r := by
  induction l with
  | nil => exact ⟨[], rfl⟩
  | cons a rest ih =>
    obtain ⟨⟨b, hb⟩, hrest⟩ := List.forall_mem_cons.mp h
    obtain ⟨more, hmore⟩ := ih hrest
    exact ⟨b :: more, mapM_eq_ok.mpr (.cons hb (mapM_eq_ok.mp hmore))⟩

theorem returns_mapM {f : α → Except ε β} {l : List α} :
    (l.mapM f).Returns ↔ ∀ a ∈ l, (f a).Returns := by
  constructor
  · rintro ⟨r, h⟩ a ha
    obtain ⟨b, -, hb⟩ := mem_mapM h ha
    exact ⟨b, hb⟩
  · exact fun h => exists_mapM h

theorem mapM_congr {f g : α → Except ε β} {l : List α} (h : ∀ a ∈ l, f a = g a) :
    l.mapM f = l.mapM g := by
  induction l with
  | nil => rfl
  | cons a rest ih =>
    obtain ⟨ha, hrest⟩ := List.forall_mem_cons.mp h
    rw [List.mapM_cons, List.mapM_cons, ha, ih hrest]

/-- A step that fails in one way only, for the elements of some kind. -/
theorem mapM_of_ite {f : α → Except ε β} {P : α → Prop} [DecidablePred P] {e : ε} {g : α → β}
    (h : ∀ a, f a = if P a then .error e else .ok (g a)) (l : List α) :
    l.mapM f = if ∃ a ∈ l, P a then .error e else .ok (l.map g) := by
  induction l with
  | nil => rfl
  | cons a rest ih =>
    rw [List.mapM_cons, h, ih]
    by_cases ha : P a
    · have hany : ∃ b ∈ a :: rest, P b := ⟨a, List.mem_cons_self .., ha⟩
      rw [if_pos ha, if_pos hany]
      rfl
    by_cases hrest : ∃ b ∈ rest, P b
    · have hany : ∃ b ∈ a :: rest, P b := hrest.imp fun _ hb => ⟨List.mem_cons_of_mem a hb.1, hb.2⟩
      rw [if_neg ha, if_pos hrest, if_pos hany]
      rfl
    · have hnone : ¬ ∃ b ∈ a :: rest, P b := by
        rintro ⟨b, hb, hPb⟩
        rcases List.mem_cons.mp hb with rfl | hb
        · exact ha hPb
        · exact hrest ⟨b, hb, hPb⟩
      rw [if_neg ha, if_neg hrest, if_neg hnone]
      rfl

/-- Lists that are put together hold what the elements give. -/
theorem eq_flatMap_of_flatten {f : α → Except ε (List β)} {l : List α} {r : List β}
    (h : (l.mapM f).map List.flatten = .ok r) : r = l.flatMap fun a => ((f a).toOption).getD [] := by
  cases hlists : l.mapM f with
  | error e =>
    rw [hlists] at h
    cases h
  | ok lists =>
    rw [hlists] at h
    cases h
    rw [mapM_eq_ok] at hlists
    induction hlists with
    | nil => rfl
    | cons hfirst _ ih => rw [List.flatten_cons, List.flatMap_cons, ih, hfirst]; rfl

/-- All elements must give a list for anything to be in the lists put together. -/
theorem mem_flatten_mapM_iff {f : α → Except ε (List β)} {l : List α} {b : β} :
    b ∈ (l.mapM f).map List.flatten ↔ (∀ a ∈ l, (f a).Returns) ∧ ∃ a ∈ l, b ∈ f a := by
  constructor
  · rintro ⟨all, hall, hb⟩
    cases hlists : l.mapM f with
    | error e =>
      rw [hlists] at hall
      cases hall
    | ok lists =>
      rw [hlists] at hall
      cases hall
      obtain ⟨found, hfound, hb⟩ := List.mem_flatten.mp hb
      obtain ⟨a, ha, hfa⟩ := mem_of_mapM hlists hfound
      exact ⟨returns_mapM.mp ⟨lists, hlists⟩, a, ha, found, hfa, hb⟩
  · rintro ⟨hreturns, a, ha, found, hfa, hb⟩
    obtain ⟨lists, hlists⟩ := returns_mapM.mpr hreturns
    obtain ⟨other, hother, heq⟩ := mem_mapM hlists ha
    obtain rfl := Except.ok.inj (hfa.symm.trans heq)
    rw [hlists]
    exact ⟨lists.flatten, rfl, List.mem_flatten_of_mem hother hb⟩

end Except
