import Checkup.Proofs.Json.RoundTrip

/-!
# Texts that are nested too deep

The reader stops at a bracket for which there is no room, whatever follows. That is the only fault of
reading a text; a text that is no JSON is passed over.

* `value_of_le`: more room changes what is read only where the room was too small.
* `isTooDeep_of_denotes`: a text is too deep if its value is.
* `isTooDeep_brackets`: so is one that begins with too many brackets.
* `load_eq_error_iff`, `load_eq_ok_iff`: what reading a text comes to.
-/

namespace Checkup.Json

/-- The text is nested deeper than reading goes, as far as it is JSON. -/
def IsTooDeep (s : String) : Prop := parse s.toList = .error .tooDeep

instance (s : String) : Decidable (IsTooDeep s) :=
  match h : parse s.toList with
  | .error .tooDeep => isTrue h
  | .error .malformed => isFalse fun hs => by cases h.symm.trans hs
  | .error .longInteger => isFalse fun hs => by cases h.symm.trans hs
  | .ok _ => isFalse fun hs => by cases h.symm.trans hs

/-- There is a text, and it is nested too deep. -/
def TooDeepIn (text : Option String) : Prop := ∃ s, text = some s ∧ IsTooDeep s

instance (text : Option String) : Decidable (TooDeepIn text) :=
  match text with
  | none => isFalse fun ⟨_, hs, _⟩ => by cases hs
  | some s => decidable_of_iff (IsTooDeep s)
      ⟨fun h => ⟨s, rfl, h⟩, fun ⟨_, hs, h⟩ => Option.some.inj hs ▸ h⟩

variable {room room' fuel : Nat} {s : List Char}

/-! ## More room -/

/-- What one outcome is where there was room enough, another one is, too. -/
def Enough {α : Type} (narrow wide : Except ParseError α) : Prop :=
  narrow ≠ .error .tooDeep → wide = narrow

theorem enough_refl {α : Type} (x : Except ParseError α) : Enough x x := fun _ => rfl

theorem Enough.bind {α β : Type} {narrow wide : Except ParseError α} {f g : α → Except ParseError β}
    (h : Enough narrow wide) (hf : ∀ a, Enough (f a) (g a)) :
    Enough (narrow >>= f) (wide >>= g) := by
  intro hne
  cases hn : narrow with
  | error e =>
    have hwide := h fun htoo => hne (by rw [htoo]; rfl)
    rw [hwide, hn]
    rfl
  | ok a =>
    have hwide := h fun htoo => by rw [hn] at htoo; cases htoo
    rw [hn] at hwide hne
    rw [hwide]
    exact hf a hne

/-- More room changes what `value`, `items` and `members` read only where the room was too small. -/
structure RoomFor (fuel : Nat) : Prop where
  value : ∀ {room room'} s, room ≤ room' → Enough (value room fuel s) (value room' fuel s)
  items : ∀ {room room'} s, room ≤ room' → Enough (items room fuel s) (items room' fuel s)
  members : ∀ {room room'} s, room ≤ room' → Enough (members room fuel s) (members room' fuel s)

theorem RoomFor.value_succ (ih : RoomFor fuel) (s : List Char) (h : room ≤ room') :
    Enough (Json.value room (fuel + 1) s) (Json.value room' (fuel + 1) s) := by
  by_cases hatom : ∀ c ∈ s.head?, c ≠ '[' ∧ c ≠ '\x7b'
  · rw [value_of_no_bracket hatom, value_of_no_bracket hatom]
    exact enough_refl _
  · obtain ⟨rest, hs⟩ : ∃ rest, s = '[' :: rest ∨ s = '\x7b' :: rest := by
      cases s with
      | nil => exact absurd (fun c hc => by cases hc) hatom
      | cons c rest =>
        by_contra hne
        refine hatom fun d hd => ?_
        obtain rfl := Option.some.inj hd
        exact ⟨fun heq => hne ⟨rest, .inl (heq ▸ rfl)⟩, fun heq => hne ⟨rest, .inr (heq ▸ rfl)⟩⟩
    -- without room the narrow reader stops at the bracket
    match room, room', h with
    | 0, _, _ =>
      rcases hs with rfl | rfl
      · exact fun hne => absurd rfl hne
      · exact fun hne => absurd rfl hne
    | room + 1, room' + 1, h =>
      have h := Nat.le_of_succ_le_succ h
      rcases hs with rfl | rfl
      · rw [Json.value, Json.value]
        split
        · exact enough_refl _
        · exact (ih.items _ h).bind fun _ => enough_refl _
      · rw [Json.value, Json.value]
        split
        · exact enough_refl _
        · exact (ih.members _ h).bind fun _ => enough_refl _

theorem RoomFor.items_succ (ih : RoomFor fuel) (s : List Char) (h : room ≤ room') :
    Enough (Json.items room (fuel + 1) s) (Json.items room' (fuel + 1) s) := by
  rw [Json.items, Json.items]
  refine (ih.value s h).bind ?_
  rintro ⟨first, rest⟩
  dsimp only
  split
  · exact (ih.items _ h).bind fun _ => enough_refl _
  · exact enough_refl _
  · exact enough_refl _

theorem RoomFor.members_succ (ih : RoomFor fuel) (s : List Char) (h : room ≤ room') :
    Enough (Json.members room (fuel + 1) s) (Json.members room' (fuel + 1) s) := by
  rw [Json.members, Json.members]
  refine (enough_refl (memberName s)).bind ?_
  rintro ⟨name, rest⟩
  refine (ih.value rest h).bind ?_
  rintro ⟨first, rest⟩
  dsimp only
  split
  · exact (ih.members _ h).bind fun _ => enough_refl _
  · exact enough_refl _
  · exact enough_refl _

theorem roomFor (fuel : Nat) : RoomFor fuel := by
  induction fuel with
  | zero =>
    refine ⟨fun s _ => ?_, fun s _ => ?_, fun s _ => ?_⟩
    · rw [value, value]
      exact enough_refl _
    · rw [items, items]
      exact enough_refl _
    · rw [members, members]
      exact enough_refl _
  | succ fuel ih => exact ⟨ih.value_succ, ih.items_succ, ih.members_succ⟩

/-- The text is JSON and stands for a value, read with as much room as it takes. -/
def Denotes (s : String) (v : Json) : Prop := ∃ room rest,
  value room (2 * s.toList.length + 1) (skipSpace s.toList) = .ok (v, rest) ∧ skipSpace rest = []

/-- A text is too deep if the value for which it stands is. -/
theorem isTooDeep_of_denotes {text : String} {v : Json} (h : Denotes text v)
    (hdeep : maxNesting < v.nesting) : IsTooDeep text := by
  obtain ⟨room, rest, hread, -⟩ := h
  have hfits := ((readsReadable _).value hread).2
  have hroom := (roomFor (2 * text.toList.length + 1)).value (skipSpace text.toList)
    (hdeep.trans_le hfits).le
  have hnarrow : value maxNesting (2 * text.toList.length + 1) (skipSpace text.toList) =
      .error .tooDeep := by
    by_contra hne
    have hsame := (hroom hne).symm.trans hread
    exact absurd ((readsReadable _).value hsame).2 (Nat.not_le.mpr hdeep)
  rw [IsTooDeep, parse, hnarrow]
  rfl

/-! ## Brackets -/

theorem value_brackets (hfuel : 2 * room < fuel) (rest : List Char) :
    value room fuel (List.replicate (room + 1) '[' ++ rest) = .error .tooDeep := by
  induction room generalizing fuel with
  | zero =>
    obtain ⟨fuel, rfl⟩ : ∃ f, fuel = f + 1 := ⟨fuel - 1, by omega⟩
    rfl
  | succ room ih =>
    obtain ⟨fuel, rfl⟩ : ∃ f, fuel = f + 2 := ⟨fuel - 2, by omega⟩
    have hinner : value room fuel (List.replicate (room + 1) '[' ++ rest) = .error .tooDeep :=
      ih (by omega)
    have hitems : items room (fuel + 1) (List.replicate (room + 1) '[' ++ rest) =
        .error .tooDeep := by
      rw [items, hinner]
      rfl
    have hvalue : value (room + 1) (fuel + 2) ('[' :: '[' :: (List.replicate room '[' ++ rest)) =
        (items room (fuel + 1) (List.replicate (room + 1) '[' ++ rest)).map fun found =>
          (.arr found.1, found.2) := rfl
    exact hvalue.trans (by rw [hitems]; rfl)

/-- A text that begins with too many brackets is too deep, whatever follows. -/
theorem isTooDeep_brackets {n : Nat} (h : maxNesting < n) (rest : List Char) :
    IsTooDeep (String.ofList (List.replicate n '[' ++ rest)) := by
  obtain ⟨k, rfl⟩ : ∃ k, n = maxNesting + 1 + k := ⟨n - (maxNesting + 1), by omega⟩
  generalize htext : List.replicate (maxNesting + 1 + k) '[' ++ rest = text
  have hsplit : text = List.replicate (maxNesting + 1) '[' ++ (List.replicate k '[' ++ rest) := by
    rw [← htext, List.replicate_add, List.append_assoc]
  have hskip : skipSpace text = text := by
    rw [hsplit, List.replicate_succ]
    rfl
  have hlen : maxNesting + 1 ≤ text.length := by
    rw [hsplit, List.length_append, List.length_replicate]
    omega
  have hread : value maxNesting (2 * text.length + 1)
      (List.replicate (maxNesting + 1) '[' ++ (List.replicate k '[' ++ rest)) = .error .tooDeep :=
    value_brackets (by omega) _
  rw [← hsplit] at hread
  rw [IsTooDeep, String.toList_ofList, parse, hskip, hread]
  rfl

/-! ## Reading a text -/

/-- Reading a text fails on one that is nested too deep, and on no other. -/
theorem load_eq_error_iff {text : String} {fault : Fault} :
    load text = .error fault ↔ fault = .tooDeep ∧ IsTooDeep text := by
  unfold load IsTooDeep
  cases parse text.toList with
  | ok v => simp
  | error e => cases e <;> simp [eq_comm]

/-- Otherwise it gives the value that the text is, if it is one. -/
theorem load_eq_ok_iff {text : String} {v? : Option Json} :
    load text = .ok v? ↔ ¬IsTooDeep text ∧ v? = parse? text := by
  unfold load IsTooDeep parse?
  cases parse text.toList with
  | ok v => simp [Except.toOption, eq_comm]
  | error e => cases e <;> simp [Except.toOption, eq_comm]

/-- Reads a text if there is one. -/
def loadIn : Option String → Except Fault (Option Json)
  | none => .ok none
  | some s => load s

theorem loadIn_eq (text : Option String) :
    loadIn text = if TooDeepIn text then .error .tooDeep else .ok (text.bind parse?) := by
  cases text with
  | none => rfl
  | some s =>
    by_cases hdeep : IsTooDeep s
    · rw [if_pos ⟨s, rfl, hdeep⟩]
      exact load_eq_error_iff.mpr ⟨rfl, hdeep⟩
    · rw [if_neg fun ⟨_, hs, h⟩ => hdeep (Option.some.inj hs ▸ h)]
      exact load_eq_ok_iff.mpr ⟨hdeep, rfl⟩

/-- A text that is a value is not nested too deep. -/
theorem not_tooDeepIn {text : Option String} {v : Json} (h : text.bind parse? = some v) :
    ¬ TooDeepIn text := by
  rintro ⟨s, rfl, hdeep⟩
  rw [Option.bind_some, parse?, hdeep] at h
  cases h

end Checkup.Json
