import Checkup.Proofs.Json.RoundTrip

/-!
# Line ends in written JSON

Written text has no carriage returns, so reading it as text, with every line end as `\n`, changes
nothing.

* `not_return_pretty`: no file with a readable value has a carriage return.
-/

namespace Checkup.Json

/-- The text has no carriage return. -/
def NoReturn (s : List Char) : Prop := '\r' ∉ s

instance (s : List Char) : Decidable (NoReturn s) := inferInstanceAs (Decidable ('\r' ∉ s))

theorem NoReturn.append {s t : List Char} (hs : NoReturn s) (ht : NoReturn t) : NoReturn (s ++ t) := by
  intro h
  rcases List.mem_append.mp h with h | h
  · exact hs h
  · exact ht h

theorem NoReturn.cons {c : Char} (hc : c ≠ '\r') {s : List Char} (hs : NoReturn s) :
    NoReturn (c :: s) := by
  intro h
  rcases List.mem_cons.mp h with h | h
  · exact hc h.symm
  · exact hs h

theorem noReturn_nil : NoReturn [] := List.not_mem_nil

theorem NoReturn.flatMap {α : Type} {f : α → List Char} {l : List α} (h : ∀ a ∈ l, NoReturn (f a)) :
    NoReturn (l.flatMap f) := by
  intro hc
  obtain ⟨a, ha, hca⟩ := List.mem_flatMap.mp hc
  exact h a ha hca

theorem noReturn_of_digits {ds : List Char} (h : Digits ds) : NoReturn ds := by
  intro hc
  have hdigit := h _ hc
  exact absurd hdigit (by decide)

theorem hexDigit_ne_return : ∀ d : Fin 16, Number.hexDigit d.val ≠ '\r' := by decide

theorem noReturn_unitEscape (n : Nat) : NoReturn (unitEscape n) := by
  have hdigit : ∀ k : Nat, Number.hexDigit (k % 16) ≠ '\r' := fun k =>
    hexDigit_ne_return ⟨k % 16, Nat.mod_lt k (by decide)⟩
  unfold unitEscape
  intro hc
  simp only [List.mem_cons, List.not_mem_nil, or_false] at hc
  rcases hc with hc | hc | hc | hc | hc | hc
  · exact absurd hc (by decide)
  · exact absurd hc (by decide)
  · exact hdigit _ hc.symm
  · exact hdigit _ hc.symm
  · exact hdigit _ hc.symm
  · exact hdigit _ hc.symm

theorem noReturn_escapeChar (c : Char) : NoReturn (escapeChar c) := by
  have hescaped := escaped_escapeChar c
  generalize escapeChar c = text at hescaped ⊢
  cases hescaped with
  | @short mark hmark =>
    have hne : mark ≠ '\r' := by
      rintro rfl
      cases hmark
    exact (noReturn_nil.cons hne).cons (by decide)
  | plain _ _ hcontrol =>
    refine noReturn_nil.cons ?_
    rintro rfl
    exact absurd hcontrol (by decide)
  | units => exact NoReturn.flatMap fun n _ => noReturn_unitEscape n

theorem noReturn_quotedPoints (points : List Nat) : NoReturn (quotedPoints points) := by
  have hquote : NoReturn ['"'] := noReturn_nil.cons (by decide)
  refine NoReturn.cons (by decide) (NoReturn.append (NoReturn.flatMap fun n _ => ?_) hquote)
  unfold escapePoint
  split
  · exact noReturn_unitEscape n
  · exact noReturn_escapeChar _

theorem noReturn_keyText (key : Label) : NoReturn (keyText key) := by
  cases key with
  | text s =>
    rw [keyText, quoted_eq]
    exact noReturn_quotedPoints _
  | loose points => exact noReturn_quotedPoints points

theorem noReturn_intText (n : Int) : NoReturn (Number.intText n).toList := by
  have hdigits := noReturn_of_digits (digits_decimalDigits n.natAbs)
  rw [intText_eq]
  split
  · exact hdigits.cons (by decide)
  · exact hdigits

theorem noReturn_isNumeral {text : List Char} {digits : Nat} {e : Int} (h : IsNumeral text digits e) :
    NoReturn text := by
  obtain ⟨whole, fraction, power, rfl, hw, hf, hp, -⟩ := h
  refine (noReturn_of_digits hw.1).append (NoReturn.append ?_ ?_)
  · unfold fractionText
    split
    · exact noReturn_nil
    · exact (noReturn_of_digits hf).cons (by decide)
  · cases power with
    | none => exact noReturn_nil
    | some p =>
      obtain ⟨down, ds⟩ := p
      refine NoReturn.cons (by decide) (NoReturn.cons ?_ (noReturn_of_digits hp.1))
      cases down
      · decide
      · decide

theorem noReturn_floatText {x : Number.Binary64} (h : IsRead x) :
    NoReturn (x.text numberLayout).toList := by
  cases x with
  | finite negative m e =>
    obtain ⟨body, digits, exponent, hbody, -, htext⟩ := text_finite negative h
    rw [htext]
    split
    · exact (noReturn_isNumeral hbody).cons (by decide)
    · exact noReturn_isNumeral hbody
  | infinite negative => cases negative <;> exact (by decide)
  | notANumber => exact (by decide)

theorem noReturn_atomText {v : Json} (h : Readable v) : NoReturn (atomText v) := by
  cases h with
  | null => exact (by decide)
  | bool b => cases b <;> exact (by decide)
  | int h => exact noReturn_intText _
  | float h => exact noReturn_floatText h
  | str s =>
    rw [atomText, quoted_eq]
    exact noReturn_quotedPoints _
  | loose h => exact noReturn_quotedPoints _
  | arr h => exact noReturn_nil
  | obj hk hn h => exact noReturn_nil

theorem noReturn_newline (depth : Nat) : NoReturn (newline depth) := by
  refine NoReturn.cons (by decide) fun hc => ?_
  exact absurd (List.eq_of_mem_replicate hc) (by decide)

theorem noReturn_writeItems {depth : Nat} {items : List Json}
    (h : ∀ v ∈ items, NoReturn (write .indented (depth + 1) v)) :
    NoReturn (writeItems .indented depth items) := by
  induction items with
  | nil => exact noReturn_nil
  | cons v rest ih =>
    rw [writeItems]
    exact ((noReturn_newline (depth + 1)).cons (by decide)).append
      ((h v (List.mem_cons_self ..)).append (ih fun w hw => h w (List.mem_cons_of_mem v hw)))

theorem noReturn_writeMembers {depth : Nat} {ms : Members}
    (h : ∀ m ∈ ms, NoReturn (write .indented (depth + 1) m.2)) :
    NoReturn (writeMembers .indented depth ms) := by
  induction ms with
  | nil => exact noReturn_nil
  | cons m rest ih =>
    obtain ⟨key, v⟩ := m
    rw [writeMembers]
    exact ((noReturn_newline (depth + 1)).cons (by decide)).append
      ((noReturn_keyText key).append ((((h _ (List.mem_cons_self ..)).append
        (ih fun w hw => h w (List.mem_cons_of_mem _ hw))).cons (by decide)).cons (by decide)))

theorem noReturn_write {v : Json} (h : Readable v) (depth : Nat) :
    NoReturn (write .indented depth v) := by
  have hatom : ∀ (depth : Nat) {a : Json}, Readable a → IsAtom a →
      NoReturn (write .indented depth a) := by
    intro depth a hr ha
    rw [write_of_isAtom _ _ ha]
    exact noReturn_atomText hr
  have hclose : ∀ (depth : Nat) (c : Char), c ≠ '\r' → NoReturn (newline depth ++ [c]) :=
    fun depth c hc => (noReturn_newline depth).append (noReturn_nil.cons hc)
  induction h generalizing depth with
  | null => exact hatom depth .null trivial
  | bool b => exact hatom depth (.bool b) trivial
  | int h => exact hatom depth (.int h) trivial
  | float h => exact hatom depth (.float h) trivial
  | str s => exact hatom depth (.str s) trivial
  | loose h => exact hatom depth (.loose h) trivial
  | @arr items h ih =>
    cases items with
    | nil => exact (show NoReturn ['[', ']'] by decide)
    | cons first rest =>
      have hrest := noReturn_writeItems fun v hv => ih v (List.mem_cons_of_mem first hv) (depth + 1)
      have hfirst := ih first (List.mem_cons_self ..) (depth + 1)
      rw [write]
      exact (((noReturn_newline (depth + 1)).append hfirst).append
        (hrest.append (hclose depth ']' (by decide)))).cons (by decide)
  | @obj ms hk hn h ih =>
    cases ms with
    | nil => exact (show NoReturn ['\x7b', '\x7d'] by decide)
    | cons m rest =>
      obtain ⟨key, first⟩ := m
      have hrest := noReturn_writeMembers fun v hv => ih v (List.mem_cons_of_mem _ hv) (depth + 1)
      have hfirst := ih (key, first) (List.mem_cons_self ..) (depth + 1)
      have hmember := (noReturn_keyText key).append ((hfirst.cons (by decide : ' ' ≠ '\r')).cons
        (by decide : ':' ≠ '\r'))
      rw [write]
      exact (((noReturn_newline (depth + 1)).append hmember).append
        (hrest.append (hclose depth '\x7d' (by decide)))).cons (by decide)

/-- No file with a readable value has a carriage return. -/
theorem not_return_pretty {v : Json} (h : Readable v) : '\r' ∉ (v.pretty ++ "\n").toList := by
  rw [String.toList_append, pretty, String.toList_ofList]
  exact (noReturn_write h 0).append (by decide)

end Checkup.Json
