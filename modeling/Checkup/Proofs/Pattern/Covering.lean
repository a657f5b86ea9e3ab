import Checkup.Proofs.Pattern.Kept

/-!
# Matches one after another

A search takes the leftmost place at which a pattern matches, and goes on behind the match. So a place
at which the pattern matches need not be one at which a match is found: one that begins before it may
go on across it. But no such place is passed over.

* `Cursor.skip`: a place further on in a text.
* `skip_of_matches`: a match ends further on.
* `searchFrom?_of_matches`, `exists_leftmost_of_searchFrom?`: the leftmost match.
* `exists_covering`: a place at which a pattern matches lies in one of its matches.
-/

namespace Checkup.Pattern

variable {p : Pattern} {place : Cursor} {found : Found} {before : Option Char}
  {front rest : List Char}

/-! ## Places further on -/

/-- The place behind the first part of a text, where the character before it is the last one of that
part. -/
def Cursor.skip (before : Option Char) (front rest : List Char) : Cursor :=
  ⟨front.getLast?.or before, rest⟩

theorem Cursor.skip_nil (before : Option Char) (rest : List Char) :
    skip before [] rest = ⟨before, rest⟩ := rfl

theorem Cursor.skip_cons (before : Option Char) (c : Char) (front rest : List Char) :
    skip before (c :: front) rest = skip (some c) front rest := by
  unfold skip
  rw [List.getLast?_cons]
  cases front.getLast? <;> rfl

theorem Cursor.skip_append (before : Option Char) (first second rest : List Char) :
    skip (skip before first (second ++ rest)).before second rest =
      skip before (first ++ second) rest := by
  unfold skip
  rw [List.getLast?_append, Option.or_assoc]

/-- A match ends further on in the text. -/
theorem skip_of_matches (h : Matches p place found) :
    ∃ part, place.rest = part ++ found.after.rest ∧
      found.after = .skip place.before part found.after.rest := by
  induction h with
  | one before rest hc => exact ⟨[_], rfl, rfl⟩
  | @runStep accepts c before rest after hc tail ih =>
    obtain ⟨part, hrest, hafter⟩ := ih
    refine ⟨c :: part, congrArg (c :: ·) hrest, ?_⟩
    rw [Cursor.skip_cons]
    exact hafter
  | seq ha hb iha ihb =>
    obtain ⟨first, hfirst, hmid⟩ := iha
    obtain ⟨second, hsecond, hafter⟩ := ihb
    refine ⟨first ++ second, by rw [hfirst, hsecond, List.append_assoc], ?_⟩
    rw [hmid, hsecond, Cursor.skip_append] at hafter
    exact hafter
  | eitherLeft _ ih => exact ih
  | eitherRight _ ih => exact ih
  | keep _ ih => exact ih
  | _ => exact ⟨[], rfl, rfl⟩

/-! ## The leftmost match -/

/-- From a place before one at which a pattern matches a search finds a match, there or before it. -/
theorem searchFrom?_of_matches (h : Matches p (.skip before front rest) found) :
    ∃ front' more first, front = front' ++ more ∧ p.searchFrom? before (front ++ rest) = some first ∧
      Matches p (.skip before front' (more ++ rest)) first := by
  induction front generalizing before with
  | nil =>
    obtain ⟨first, hfirst, hat⟩ := matchAt?_of_matches h
    refine ⟨[], [], first, rfl, ?_, hfirst⟩
    rw [Cursor.skip_nil] at hat
    cases rest with
    | nil => exact hat
    | cons c rest => rw [List.nil_append, searchFrom?, hat]
  | cons c front ih =>
    rw [List.cons_append, searchFrom?]
    cases hat : p.matchAt? ⟨before, c :: (front ++ rest)⟩ with
    | some first =>
      exact ⟨[], c :: front, first, rfl, rfl, matches_of_matchAt? hat⟩
    | none =>
      rw [Cursor.skip_cons] at h
      obtain ⟨front', more, first, rfl, hsearch, hfirst⟩ := ih h
      exact ⟨c :: front', more, first, rfl, hsearch, Cursor.skip_cons .. ▸ hfirst⟩

/-- A search finds the preferred way at a place, and the pattern matches nowhere before it. -/
theorem exists_leftmost_of_searchFrom? {text : List Char} (h : p.searchFrom? before text = some found) :
    ∃ front rest, text = front ++ rest ∧ p.matchAt? (.skip before front rest) = some found ∧
      ∀ front' rest' found', text = front' ++ rest' → Matches p (.skip before front' rest') found' →
        front.length ≤ front'.length := by
  induction text generalizing before with
  | nil => exact ⟨[], [], rfl, h, fun _ _ _ _ _ => Nat.zero_le _⟩
  | cons c text ih =>
    rw [searchFrom?] at h
    split at h
    · rename_i hat
      exact ⟨[], c :: text, rfl, hat.trans h, fun _ _ _ _ _ => Nat.zero_le _⟩
    · rename_i hnone
      obtain ⟨front, rest, rfl, hat, hleast⟩ := ih h
      refine ⟨c :: front, rest, rfl, Cursor.skip_cons .. ▸ hat, ?_⟩
      intro front' rest' found' hsplit hmatch
      cases front' with
      | nil =>
        obtain rfl : c :: (front ++ rest) = rest' := hsplit
        obtain ⟨first, -, hfirst⟩ := matchAt?_of_matches hmatch
        rw [Cursor.skip_nil, hnone] at hfirst
        cases hfirst
      | cons d front' =>
        obtain ⟨rfl, htext⟩ := List.cons.inj hsplit
        rw [Cursor.skip_cons] at hmatch
        exact Nat.succ_le_succ (hleast front' rest' found' htext hmatch)

theorem exists_skip_of_searchFrom? {text : List Char} (h : p.searchFrom? before text = some found) :
    ∃ front rest, text = front ++ rest ∧ Matches p (.skip before front rest) found :=
  have ⟨front, rest, htext, hat, _⟩ := exists_leftmost_of_searchFrom? h
  ⟨front, rest, htext, matches_of_matchAt? hat⟩

/-! ## All matches -/

/-- A pattern always takes a part of the text. -/
def Takes (p : Pattern) : Prop :=
  ∀ {place found}, Matches p place found → found.after.rest.length < place.rest.length

theorem allFrom_succ {fuel : Nat} {text : List Char} (hsearch : p.searchFrom? before text = some found)
    (hless : found.after.rest.length < text.length) : p.allFrom (fuel + 1) before text =
      found :: p.allFrom fuel found.after.before found.after.rest := by
  rw [allFrom.eq_def]
  dsimp only
  rw [hsearch]
  dsimp only
  rw [if_pos hless]

theorem exists_covering_from (hp : p.Takes) {fuel : Nat} (hfuel : (front ++ rest).length < fuel)
    (h : Matches p (.skip before front rest) found) :
    ∃ front' more first, front = front' ++ more ∧ first ∈ p.allFrom fuel before (front ++ rest) ∧
      Matches p (.skip before front' (more ++ rest)) first ∧ first.after.rest.length < rest.length := by
  induction fuel generalizing before front with
  | zero => exact absurd hfuel (Nat.not_lt_zero _)
  | succ fuel ih =>
    obtain ⟨front', more, first, rfl, hsearch, hfirst⟩ := searchFrom?_of_matches h
    have hless : first.after.rest.length < (front' ++ more ++ rest).length := by
      have hmore : first.after.rest.length < (more ++ rest).length := hp hfirst
      simp only [List.length_append] at hmore ⊢
      omega
    rw [allFrom_succ hsearch hless]
    by_cases hend : first.after.rest.length < rest.length
    · exact ⟨front', more, first, rfl, List.mem_cons_self .., hfirst, hend⟩
    · -- the match ends before the place, so the search goes on in front of it
      obtain ⟨part, hpart, hafter⟩ := skip_of_matches hfirst
      obtain ⟨more', hmore'⟩ : rest <:+ first.after.rest :=
        List.suffix_of_suffix_length_le ⟨more, rfl⟩ ⟨part, hpart.symm⟩ (Nat.not_lt.mp hend)
      have hsplit : more ++ rest = part ++ more' ++ rest := by
        rw [List.append_assoc, hmore']
        exact hpart
      obtain rfl := List.append_cancel_right hsplit
      rw [← hmore', List.append_assoc part, Cursor.skip_append] at hafter
      have hplace : Cursor.skip first.after.before more' rest =
          .skip before (front' ++ (part ++ more')) rest := by
        rw [hafter, Cursor.skip_append, List.append_assoc]
      rw [← hmore'] at hless ⊢
      obtain ⟨front'', more'', next, rfl, hnext, hmatch, hover⟩ := ih (by omega) (hplace ▸ h)
      refine ⟨front' ++ (part ++ front''), more'', next, by simp, List.mem_cons_of_mem _ hnext, ?_,
        hover⟩
      rw [List.append_assoc] at hafter
      rwa [hafter, Cursor.skip_append, List.append_assoc] at hmatch

/-- A place at which a pattern matches lies in one of its matches in the text: one that begins there or
before it, and ends behind it. -/
theorem exists_covering (hp : p.Takes) (h : Matches p (.skip none front rest) found) :
    ∃ front' more first, front = front' ++ more ∧ first ∈ p.all (front ++ rest) ∧
      Matches p (.skip none front' (more ++ rest)) first ∧ first.after.rest.length < rest.length :=
  exists_covering_from hp (Nat.lt_succ_self _) h

end Checkup.Pattern
