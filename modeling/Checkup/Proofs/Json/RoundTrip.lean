import Checkup.Proofs.Json.Numeral
import Checkup.Proofs.Json.Strings

/-!
# What is written is read again

A value that was read is written so that reading gives it back, where there is room for its nesting.
Reading is given a bound on its calls; the length of the text is enough, because every call takes a
part of it.

* `fits_of_parse`: reading gives readable values only, in the room that there was.
* `value_write`: a written readable value is read from the start of a text.
* `Fits.parse_pretty`: a file with a value that fits reads back.
-/

namespace Checkup.Json

open Number.Binary64 (decimalDigits)

/-- A value that reads back: integers are not too long, finite numbers are in normal form, strings
that are no text have their halves apart, and no member is named twice. -/
inductive Readable : Json → Prop
  | null : Readable .null
  | bool (b : Bool) : Readable (.bool b)
  | int {n : Int} (h : (decimalDigits n.natAbs).length ≤ Number.maxDecimalDigits) :
    Readable (.int n)
  | float {x : Number.Binary64} (h : IsRead x) : Readable (.float x)
  | str (s : String) : Readable (.str s)
  | loose {points : List Nat} (h : IsLoose points) : Readable (.loose points)
  | arr {items : List Json} (h : ∀ v ∈ items, Readable v) : Readable (.arr items)
  | obj {members : Members} (hk : ∀ m ∈ members, IsSound m.1) (hn : members.keys.Nodup)
    (h : ∀ m ∈ members, Readable m.2) : Readable (.obj members)

/-! ## Blanks -/

/-- All characters are blanks. -/
def Blanks (s : List Char) : Prop := ∀ c ∈ s, isSpace c = true

/-- Containers are set apart by blanks and commas only. -/
structure Spacing.IsBlank (s : Spacing) : Prop where
  opening : ∀ depth, Blanks (s.opening depth)
  between : ∀ depth, ∃ blanks, s.between depth = ',' :: blanks ∧ Blanks blanks
  closing : ∀ depth, Blanks (s.closing depth)

theorem skipSpace_append {blanks : List Char} (h : Blanks blanks) (rest : List Char) :
    skipSpace (blanks ++ rest) = skipSpace rest := List.dropWhile_append_of_pos h

theorem skipSpace_cons {c : Char} (h : isSpace c = false) (rest : List Char) :
    skipSpace (c :: rest) = c :: rest := by
  rw [skipSpace, List.dropWhile_cons, h]
  rfl

theorem blanks_newline (depth : Nat) : Blanks (newline depth) := by
  intro c hc
  rcases List.mem_cons.mp hc with rfl | hc
  · rfl
  · rw [List.eq_of_mem_replicate hc]
    rfl

theorem isBlank_indented : Spacing.indented.IsBlank where
  opening depth := blanks_newline (depth + 1)
  between depth := ⟨newline (depth + 1), rfl, blanks_newline (depth + 1)⟩
  closing depth := blanks_newline depth

theorem endsNumeral_cons {c : Char} (h : c = ',' ∨ c = ']' ∨ c = '\x7d' ∨ isSpace c = true)
    (rest : List Char) : EndsNumeral (c :: rest) := by
  intro d hd
  obtain rfl := Option.some.inj hd
  have hspace : isSpace c = true → c = ' ' ∨ c = '\t' ∨ c = '\n' ∨ c = '\r' := by
    intro h
    simpa [isSpace, or_assoc] using h
  rcases h with rfl | rfl | rfl | h
  · decide
  · decide
  · decide
  · rcases hspace h with rfl | rfl | rfl | rfl <;> decide

theorem endsNumeral_append {blanks rest : List Char} (h : Blanks blanks) (hr : EndsNumeral rest) :
    EndsNumeral (blanks ++ rest) := by
  cases blanks with
  | nil => exact hr
  | cons c more => exact endsNumeral_cons (.inr (.inr (.inr (h c (List.mem_cons_self ..))))) _

/-! ## The first character of a value -/

/-- The character may begin a value that is no container. -/
def BeginsAtom (c : Char) : Prop := isSpace c = false ∧ c ≠ ']' ∧ c ≠ '[' ∧ c ≠ '\x7b'

instance (c : Char) : Decidable (BeginsAtom c) :=
  inferInstanceAs (Decidable (isSpace c = false ∧ c ≠ ']' ∧ c ≠ '[' ∧ c ≠ '\x7b'))

theorem beginsAtom_of_digit {c : Char} (h : isDigit c = true) : BeginsAtom c := by
  have hne : ∀ d : Char, isDigit d = false → c ≠ d := by
    rintro d hd rfl
    rw [h] at hd
    cases hd
  have h1 := hne ' ' rfl
  have h2 := hne '\t' rfl
  have h3 := hne '\n' rfl
  have h4 := hne '\r' rfl
  exact ⟨by simp [isSpace, h1, h2, h3, h4], hne _ rfl, hne _ rfl, hne _ rfl⟩

theorem value_of_no_bracket {s : List Char} (h : ∀ c ∈ s.head?, c ≠ '[' ∧ c ≠ '\x7b')
    (room fuel : Nat) : value room (fuel + 1) s = atom s := by
  rw [value.eq_def]
  split
  · rename_i heq
    cases heq
  · exact absurd rfl (h _ rfl).1
  · exact absurd rfl (h _ rfl).1
  · exact absurd rfl (h _ rfl).2
  · exact absurd rfl (h _ rfl).2
  · rfl

theorem value_atom {c : Char} (h : BeginsAtom c) (room fuel : Nat) (rest : List Char) :
    value room (fuel + 1) (c :: rest) = atom (c :: rest) := by
  refine value_of_no_bracket (fun d hd => ?_) room fuel
  obtain rfl := Option.some.inj hd
  exact h.2.2

theorem intText_head (n : Int) : ∃ c more, (Number.intText n).toList = c :: more ∧ BeginsAtom c := by
  obtain ⟨hd, hne, -⟩ := isWhole_decimalDigits n.natAbs
  rw [intText_eq]
  split
  · exact ⟨'-', _, rfl, by decide⟩
  · cases hds : decimalDigits n.natAbs with
    | nil => exact absurd hds hne
    | cons c more =>
      rw [hds] at hd
      exact ⟨c, more, rfl, beginsAtom_of_digit (hd c (List.mem_cons_self ..))⟩

theorem floatText_head {x : Number.Binary64} (h : IsRead x) :
    ∃ c more, (x.text numberLayout).toList = c :: more ∧ BeginsAtom c := by
  cases x with
  | finite negative m e =>
    obtain ⟨body, digits, exponent, hbody, -, htext⟩ := text_finite negative h
    obtain ⟨whole, fraction, power, rfl, hw, -⟩ := hbody
    rw [htext]
    cases negative
    · obtain ⟨hd, hne, -⟩ := hw
      cases whole with
      | nil => exact absurd rfl hne
      | cons c more => exact ⟨c, _, rfl, beginsAtom_of_digit (hd c (List.mem_cons_self ..))⟩
    · exact ⟨'-', _, rfl, by decide⟩
  | infinite negative =>
    cases negative
    · exact ⟨'I', _, rfl, by decide⟩
    · exact ⟨'-', _, rfl, by decide⟩
  | notANumber => exact ⟨'N', _, rfl, by decide⟩

/-- The value is no container. -/
def IsAtom : Json → Prop
  | .arr _ | .obj _ => False
  | _ => True

theorem write_of_isAtom (spacing : Spacing) (depth : Nat) {v : Json} (h : IsAtom v) :
    write spacing depth v = atomText v := by
  cases v <;> first | exact h.elim | rfl

theorem atomText_head {v : Json} (h : Readable v) (ha : IsAtom v) :
    ∃ c more, atomText v = c :: more ∧ BeginsAtom c := by
  cases h with
  | null => exact ⟨'n', _, rfl, by decide⟩
  | bool b =>
    cases b
    · exact ⟨'f', _, rfl, by decide⟩
    · exact ⟨'t', _, rfl, by decide⟩
  | int h => exact intText_head _
  | float h => exact floatText_head h
  | str s => exact ⟨'"', _, rfl, by decide⟩
  | loose h => exact ⟨'"', _, rfl, by decide⟩
  | arr h => exact ha.elim
  | obj hk hn h => exact ha.elim

theorem atom_atomText {v : Json} (h : Readable v) (ha : IsAtom v) {rest : List Char}
    (hr : EndsNumeral rest) : atom (atomText v ++ rest) = .ok (v, rest) := by
  cases h with
  | null => rfl
  | bool b => cases b <;> rfl
  | int h => exact atom_intText h hr
  | float h => exact atom_floatText h hr
  | str s => exact atom_quoted s rest
  | loose h => exact atom_quotedPoints h rest
  | arr h => exact ha.elim
  | obj hk hn h => exact ha.elim

theorem value_atomText {v : Json} (h : Readable v) (ha : IsAtom v) {rest : List Char}
    (hr : EndsNumeral rest) (room fuel : Nat) :
    value room (fuel + 1) (atomText v ++ rest) = .ok (v, rest) := by
  obtain ⟨c, more, htext, hc⟩ := atomText_head h ha
  have hatom := atom_atomText h ha hr
  rw [htext, List.cons_append] at hatom ⊢
  rw [value_atom hc, hatom]

/-- A value begins with no blank, and with no bracket that closes an array. -/
theorem write_head (spacing : Spacing) (depth : Nat) {v : Json} (h : Readable v) :
    ∃ c more, write spacing depth v = c :: more ∧ isSpace c = false ∧ c ≠ ']' := by
  by_cases ha : IsAtom v
  · obtain ⟨c, more, htext, hc⟩ := atomText_head h ha
    exact ⟨c, more, (write_of_isAtom spacing depth ha).trans htext, hc.1, hc.2.1⟩
  · cases v with
    | arr items =>
      cases items with
      | nil => exact ⟨'[', _, rfl, rfl, by decide⟩
      | cons first rest => exact ⟨'[', _, by rw [write], rfl, by decide⟩
    | obj members =>
      cases members with
      | nil => exact ⟨'\x7b', _, rfl, rfl, by decide⟩
      | cons m rest => exact ⟨'\x7b', _, by rw [write], rfl, by decide⟩
    | _ => exact absurd trivial ha

/-! ## Reading a written value -/

variable {spacing : Spacing} {room : Nat}

/-- The value is read back from the start of a text in some room, with a bound of its length. -/
def ReadsBack (spacing : Spacing) (room : Nat) (v : Json) : Prop :=
  ∀ depth fuel rest, (write spacing depth v).length ≤ fuel → EndsNumeral rest →
    value room fuel (write spacing depth v ++ rest) = .ok (v, rest)

theorem skipSpace_write {v : Json} (h : Readable v) (depth : Nat) (rest : List Char) :
    skipSpace (write spacing depth v ++ rest) = write spacing depth v ++ rest := by
  obtain ⟨c, more, htext, hc, -⟩ := write_head spacing depth h
  rw [htext, List.cons_append, skipSpace_cons hc]

theorem endsNumeral_writeItems (hs : spacing.IsBlank) (depth : Nat) (items : List Json)
    (rest : List Char) :
    EndsNumeral (writeItems spacing depth items ++ (spacing.closing depth ++ ']' :: rest)) := by
  cases items with
  | nil =>
    rw [writeItems, List.nil_append]
    exact endsNumeral_append (hs.closing depth) (endsNumeral_cons (.inr (.inl rfl)) rest)
  | cons item more =>
    obtain ⟨blanks, hb, -⟩ := hs.between depth
    rw [writeItems, hb]
    exact endsNumeral_cons (.inl rfl) _

theorem items_last {fuel : Nat} {s after rest : List Char} {first : Json}
    (hv : value room fuel s = .ok (first, after)) (ha : skipSpace after = ']' :: rest) :
    items room (fuel + 1) s = .ok ([first], rest) := by
  rw [items, hv]
  simp only [bind, Except.bind, ha]
  rfl

theorem items_more {fuel : Nat} {s after rest : List Char} (more : List Char) {first : Json} {others : List Json}
    (hv : value room fuel s = .ok (first, after)) (ha : skipSpace after = ',' :: more)
    (hi : items room fuel (skipSpace more) = .ok (others, rest)) :
    items room (fuel + 1) s = .ok (first :: others, rest) := by
  rw [items, hv]
  simp only [bind, Except.bind, ha, hi]
  rfl

theorem items_write (hs : spacing.IsBlank) (depth : Nat) {first : Json} {others : List Json}
    (hr : ∀ v ∈ first :: others, Readable v) (hv : ∀ v ∈ first :: others, ReadsBack spacing room v)
    {fuel : Nat} (hfuel : (write spacing (depth + 1) first).length +
      (writeItems spacing depth others).length < fuel) (rest : List Char) :
    items room fuel (write spacing (depth + 1) first ++
        (writeItems spacing depth others ++ (spacing.closing depth ++ ']' :: rest))) =
      .ok (first :: others, rest) := by
  obtain ⟨fuel, rfl⟩ : ∃ f, fuel = f + 1 := ⟨fuel - 1, by omega⟩
  have hfirst := hv first (List.mem_cons_self ..) (depth + 1) fuel _ (by omega)
    (endsNumeral_writeItems hs depth others rest)
  induction others generalizing first fuel with
  | nil =>
    refine items_last hfirst ?_
    rw [writeItems, List.nil_append, skipSpace_append (hs.closing depth), skipSpace_cons rfl]
  | cons second others ih =>
    obtain ⟨blanks, hb, hblank⟩ := hs.between depth
    have hlen : (writeItems spacing depth (second :: others)).length =
        1 + blanks.length + ((write spacing (depth + 1) second).length +
          (writeItems spacing depth others).length) := by
      rw [writeItems, hb, List.length_append, List.length_append, List.length_cons]
      omega
    obtain ⟨fuel, rfl⟩ : ∃ f, fuel = f + 1 := ⟨fuel - 1, by omega⟩
    have hv' := fun v h => hv v (List.mem_cons_of_mem first h)
    have hsecond := hv' second (List.mem_cons_self ..) (depth + 1) fuel _ (by omega)
      (endsNumeral_writeItems hs depth others rest)
    have hlater := ih (fun v h => hr v (List.mem_cons_of_mem first h)) hv' fuel (by omega) hsecond
    refine items_more (blanks ++ (write spacing (depth + 1) second ++
      (writeItems spacing depth others ++ (spacing.closing depth ++ ']' :: rest)))) hfirst ?_ ?_
    · rw [writeItems, hb]
      simp only [List.cons_append, List.append_assoc]
      exact skipSpace_cons rfl _
    · rw [skipSpace_append hblank, skipSpace_write (hr second (by simp)), hlater]

theorem value_openArray {blanks s rest : List Char} {vs : List Json} {fuel : Nat}
    (hb : Blanks blanks) {c : Char} {more : List Char} (hs : s = c :: more)
    (hc : isSpace c = false) (hne : c ≠ ']') (h : items room fuel s = .ok (vs, rest)) :
    value (room + 1) (fuel + 1) ('[' :: (blanks ++ s)) = .ok (.arr vs, rest) := by
  subst hs
  rw [value, skipSpace_append hb, skipSpace_cons hc]
  split
  · rename_i heq
    exact absurd (List.cons.inj heq).1 hne
  · rw [h]
    rfl

theorem readsBack_arr (hs : spacing.IsBlank) {elements : List Json} (hr : ∀ v ∈ elements, Readable v)
    (hv : ∀ v ∈ elements, ReadsBack spacing room v) : ReadsBack spacing (room + 1) (.arr elements) := by
  intro depth fuel rest hfuel hrest
  cases elements with
  | nil =>
    have hlen : (write spacing depth (.arr [])).length = 2 := rfl
    obtain ⟨fuel, rfl⟩ : ∃ f, fuel = f + 1 := ⟨fuel - 1, by omega⟩
    rw [write]
    rfl
  | cons first others =>
    have hshape : write spacing depth (.arr (first :: others)) ++ rest =
        '[' :: (spacing.opening depth ++ (write spacing (depth + 1) first ++
          (writeItems spacing depth others ++ (spacing.closing depth ++ ']' :: rest)))) := by
      rw [write]
      simp only [List.cons_append, List.append_assoc, List.nil_append]
    have hlen := congrArg List.length hshape
    simp only [List.length_append, List.length_cons] at hlen
    obtain ⟨fuel, rfl⟩ : ∃ f, fuel = f + 1 := ⟨fuel - 1, by omega⟩
    have hitems := items_write hs depth hr hv (by omega : _ < fuel) rest
    obtain ⟨c, more, htext, hspace, hc⟩ :=
      write_head spacing (depth + 1) (hr first (List.mem_cons_self ..))
    rw [hshape]
    exact value_openArray (hs.opening depth) (congrArg (· ++ _) htext) hspace hc hitems

/-! ## Reading a written object -/

theorem endsNumeral_writeMembers (hs : spacing.IsBlank) (depth : Nat) (ms : Members)
    (rest : List Char) :
    EndsNumeral (writeMembers spacing depth ms ++ (spacing.closing depth ++ '\x7d' :: rest)) := by
  cases ms with
  | nil =>
    rw [writeMembers, List.nil_append]
    exact endsNumeral_append (hs.closing depth) (endsNumeral_cons (.inr (.inr (.inl rfl))) rest)
  | cons m more =>
    obtain ⟨blanks, hb, -⟩ := hs.between depth
    rw [writeMembers, hb]
    exact endsNumeral_cons (.inl rfl) _

theorem keyText_cons (key : Label) : ∃ more, keyText key = '"' :: more := by
  cases key with
  | text s => exact ⟨_, rfl⟩
  | loose points => exact ⟨_, rfl⟩

theorem members_last {fuel : Nat} {s s' after rest : List Char} {name : Label} {first : Json}
    (hn : memberName s = .ok (name, s')) (hv : value room fuel s' = .ok (first, after))
    (ha : skipSpace after = '\x7d' :: rest) :
    members room (fuel + 1) s = .ok ([(name, first)], rest) := by
  rw [members, hn]
  simp only [bind, Except.bind, hv, ha]
  rfl

theorem members_more {fuel : Nat} {s s' after rest : List Char} (more : List Char) {name : Label} {first : Json}
    {others : Members} (hn : memberName s = .ok (name, s'))
    (hv : value room fuel s' = .ok (first, after)) (ha : skipSpace after = ',' :: more)
    (hm : members room fuel (skipSpace more) = .ok (others, rest)) :
    members room (fuel + 1) s = .ok ((name, first) :: others, rest) := by
  rw [members, hn]
  simp only [bind, Except.bind, hv, ha, hm]
  rfl

/-- The text of a member and of those after it. -/
def memberText (spacing : Spacing) (depth : Nat) (key : Label) (first : Json) (others : Members)
    (rest : List Char) : List Char :=
  keyText key ++ ':' :: ' ' :: (write spacing (depth + 1) first ++
    (writeMembers spacing depth others ++ (spacing.closing depth ++ '\x7d' :: rest)))

theorem memberName_memberText (spacing : Spacing) {key : Label} {first : Json} (hk : IsSound key)
    (hr : Readable first) (depth : Nat) (others : Members) (rest : List Char) :
    memberName (memberText spacing depth key first others rest) =
      .ok (key, write spacing (depth + 1) first ++
        (writeMembers spacing depth others ++ (spacing.closing depth ++ '\x7d' :: rest))) := by
  have hblank : Blanks [' '] := by intro c hc; rw [List.mem_singleton.mp hc]; rfl
  have hskip := skipSpace_append hblank (write spacing (depth + 1) first ++
    (writeMembers spacing depth others ++ (spacing.closing depth ++ '\x7d' :: rest)))
  rw [skipSpace_write hr, List.singleton_append] at hskip
  rw [memberText, memberName_keyText hk, hskip]

theorem skipSpace_memberText (depth : Nat) (key : Label) (first : Json) (others : Members)
    (rest : List Char) : skipSpace (memberText spacing depth key first others rest) =
      memberText spacing depth key first others rest := by
  obtain ⟨more, hmore⟩ := keyText_cons key
  rw [memberText, hmore, List.cons_append, skipSpace_cons rfl]

theorem writeMembers_cons (depth : Nat) {blanks : List Char}
    (hb : spacing.between depth = ',' :: blanks) (m : Label × Json) (others : Members)
    (rest : List Char) :
    writeMembers spacing depth (m :: others) ++ (spacing.closing depth ++ '\x7d' :: rest) =
      ',' :: (blanks ++ memberText spacing depth m.1 m.2 others rest) := by
  obtain ⟨key, first⟩ := m
  rw [writeMembers, hb, memberText]
  simp only [List.cons_append, List.append_assoc]

theorem members_write (hs : spacing.IsBlank) (depth : Nat) {m : Label × Json} {others : Members}
    (hk : ∀ o ∈ m :: others, IsSound o.1) (hr : ∀ o ∈ m :: others, Readable o.2)
    (hv : ∀ o ∈ m :: others, ReadsBack spacing room o.2) {fuel : Nat}
    (hfuel : (write spacing (depth + 1) m.2).length +
      (writeMembers spacing depth others).length < fuel) (rest : List Char) :
    members room fuel (memberText spacing depth m.1 m.2 others rest) = .ok (m :: others, rest) := by
  obtain ⟨fuel, rfl⟩ : ∃ f, fuel = f + 1 := ⟨fuel - 1, by omega⟩
  have hfirst := hv m (List.mem_cons_self ..) (depth + 1) fuel _ (by omega)
    (endsNumeral_writeMembers hs depth others rest)
  have hname := memberName_memberText spacing (hk m (List.mem_cons_self ..))
    (hr m (List.mem_cons_self ..)) depth others rest
  induction others generalizing m fuel with
  | nil =>
    refine members_last hname hfirst ?_
    rw [writeMembers, List.nil_append, skipSpace_append (hs.closing depth), skipSpace_cons rfl]
  | cons o others ih =>
    obtain ⟨blanks, hb, hblank⟩ := hs.between depth
    have hcons := writeMembers_cons depth hb o others rest
    have hlen : (writeMembers spacing depth (o :: others)).length =
        1 + blanks.length + ((keyText o.1).length + (2 + (write spacing (depth + 1) o.2).length +
          (writeMembers spacing depth others).length)) := by
      obtain ⟨key, first⟩ := o
      rw [writeMembers, hb]
      simp only [List.length_append, List.length_cons]
      omega
    obtain ⟨fuel, rfl⟩ : ∃ f, fuel = f + 1 := ⟨fuel - 1, by omega⟩
    have hk' := fun v h => hk v (List.mem_cons_of_mem m h)
    have hr' := fun v h => hr v (List.mem_cons_of_mem m h)
    have hv' := fun v h => hv v (List.mem_cons_of_mem m h)
    have hsecond := hv' o (List.mem_cons_self ..) (depth + 1) fuel _ (by omega)
      (endsNumeral_writeMembers hs depth others rest)
    have hlater := ih hk' hr' hv' fuel (by omega) hsecond
      (memberName_memberText spacing (hk' o (List.mem_cons_self ..)) (hr' o (List.mem_cons_self ..)) depth
        others rest)
    refine members_more (blanks ++ memberText spacing depth o.1 o.2 others rest) hname hfirst ?_ ?_
    · rw [hcons]
      exact skipSpace_cons rfl _
    · rw [skipSpace_append hblank, skipSpace_memberText, hlater]

theorem put_of_not_mem {ms : Members} {key : Label} (h : key ∉ ms.keys) (v : Json) :
    ms.put key v = ms ++ [(key, v)] := by
  induction ms with
  | nil => rfl
  | cons m rest ih =>
    obtain ⟨k, w⟩ := m
    have hk : k ≠ key := fun hk => h (hk ▸ List.mem_cons_self ..)
    have hput : Members.put ((k, w) :: rest) key v = (k, w) :: Members.put rest key v := if_neg hk
    rw [hput, ih fun hm => h (List.mem_cons_of_mem k hm)]
    rfl

theorem merge_of_nodup (first second : Members) (h : (first.keys ++ second.keys).Nodup) :
    first.merge second = first ++ second := by
  induction second generalizing first with
  | nil => exact (List.append_nil first).symm
  | cons m rest ih =>
    obtain ⟨key, v⟩ := m
    have hmove : Members.keys (first ++ [(key, v)]) ++ Members.keys rest =
        first.keys ++ Members.keys ((key, v) :: rest) := by
      simp [Members.keys]
    have hkey : key ∉ first.keys := by
      intro hm
      have hd := (List.nodup_append.mp h).2.2
      exact hd key hm key (List.mem_cons_self ..) rfl
    have hstep : first.merge ((key, v) :: rest) = (first.put key v).merge rest := rfl
    rw [hstep, put_of_not_mem hkey, ih _ (hmove ▸ h), List.append_assoc]
    rfl

theorem value_openObject {blanks s rest : List Char} {ms : Members} {fuel : Nat}
    (hb : Blanks blanks) {more : List Char} (hs : s = '"' :: more)
    (h : members room fuel s = .ok (ms, rest)) :
    value (room + 1) (fuel + 1) ('\x7b' :: (blanks ++ s)) = .ok (.obj (Members.merge [] ms), rest) := by
  subst hs
  have hopen : value (room + 1) (fuel + 1) ('\x7b' :: (blanks ++ '"' :: more)) =
      (members room fuel ('"' :: more)).bind fun p => .ok (.obj (Members.merge [] p.1), p.2) := by
    rw [value, skipSpace_append hb, skipSpace_cons rfl]
    rfl
  rw [hopen, h]
  rfl

theorem readsBack_obj (hs : spacing.IsBlank) {ms : Members} (hk : ∀ m ∈ ms, IsSound m.1)
    (hn : ms.keys.Nodup) (hr : ∀ m ∈ ms, Readable m.2) (hv : ∀ m ∈ ms, ReadsBack spacing room m.2) :
    ReadsBack spacing (room + 1) (.obj ms) := by
  intro depth fuel rest hfuel hrest
  cases ms with
  | nil =>
    have hlen : (write spacing depth (.obj [])).length = 2 := rfl
    obtain ⟨fuel, rfl⟩ : ∃ f, fuel = f + 1 := ⟨fuel - 1, by omega⟩
    rw [write]
    rfl
  | cons m others =>
    have hshape : write spacing depth (.obj (m :: others)) ++ rest =
        '\x7b' :: (spacing.opening depth ++ memberText spacing depth m.1 m.2 others rest) := by
      obtain ⟨key, first⟩ := m
      rw [write, memberText]
      simp only [List.cons_append, List.append_assoc, List.nil_append]
    have hlen := congrArg List.length hshape
    simp only [memberText, List.length_append, List.length_cons] at hlen
    obtain ⟨fuel, rfl⟩ : ∃ f, fuel = f + 1 := ⟨fuel - 1, by omega⟩
    have hmembers := members_write hs depth hk hr hv (by omega : _ < fuel) rest
    have hmerge : Members.merge [] (m :: others) = m :: others :=
      merge_of_nodup [] _ hn
    obtain ⟨more, hmore⟩ := keyText_cons m.1
    have hhead : ∃ more, memberText spacing depth m.1 m.2 others rest = '"' :: more := by
      rw [memberText, hmore]
      exact ⟨_, rfl⟩
    obtain ⟨text, htext⟩ := hhead
    rw [hshape, value_openObject (hs.opening depth) htext hmembers, hmerge]

/-! ## Round trips -/

/-- A written readable value is read from the start of a text where there is room for it. -/
theorem value_write (hs : spacing.IsBlank) {v : Json} (h : Readable v) (hroom : v.nesting ≤ room) :
    ReadsBack spacing room v := by
  have hatom : ∀ {a : Json} {room : Nat}, Readable a → IsAtom a → ReadsBack spacing room a := by
    intro a room hr ha depth fuel rest hfuel hrest
    rw [write_of_isAtom spacing depth ha] at hfuel ⊢
    obtain ⟨c, more, htext, -⟩ := atomText_head hr ha
    have hlen := congrArg List.length htext
    rw [List.length_cons] at hlen
    obtain ⟨fuel, rfl⟩ : ∃ f, fuel = f + 1 := ⟨fuel - 1, by omega⟩
    exact value_atomText hr ha hrest room fuel
  induction h generalizing room with
  | null => exact hatom .null trivial
  | bool b => exact hatom (.bool b) trivial
  | int h => exact hatom (.int h) trivial
  | float h => exact hatom (.float h) trivial
  | str s => exact hatom (.str s) trivial
  | loose h => exact hatom (.loose h) trivial
  | arr h ih =>
    obtain ⟨room, rfl⟩ := Nat.exists_eq_add_one.mpr (nesting_arr_pos.trans_le hroom)
    exact readsBack_arr hs h fun v hv => ih v hv (nesting_arr_le_iff.mp hroom v hv)
  | obj hk hn h ih =>
    obtain ⟨room, rfl⟩ := Nat.exists_eq_add_one.mpr (nesting_obj_pos.trans_le hroom)
    exact readsBack_obj hs hk hn h fun m hm => ih m hm (nesting_obj_le_iff.mp hroom m hm)

/-- A readable value reads back from its text with blanks after it. -/
theorem parse_write (hs : spacing.IsBlank) {v : Json} (h : Readable v) (hroom : v.nesting ≤ maxNesting)
    {blanks : List Char} (hb : Blanks blanks) : parse (write spacing 0 v ++ blanks) = .ok v := by
  have hskip : skipSpace blanks = [] := by
    have := skipSpace_append hb []
    rwa [List.append_nil] at this
  have hends : EndsNumeral blanks := by
    have hnil : EndsNumeral [] := fun c hc => by cases hc
    have := endsNumeral_append hb hnil
    rwa [List.append_nil] at this
  have hread := value_write hs h hroom 0 (2 * (write spacing 0 v ++ blanks).length + 1) blanks
    (by rw [List.length_append]; omega) hends
  rw [parse, skipSpace_write h, hread]
  simp only [bind, Except.bind, hskip]
  rfl

/-- A value that can be written and read back. -/
structure Fits (v : Json) : Prop where
  readable : Readable v
  shallow : v.nesting ≤ maxNesting

theorem fits_empty : Fits (.obj []) where
  readable := .obj (fun _ hm => by cases hm) List.nodup_nil fun _ hm => by cases hm
  shallow := by decide

/-- A file with a value that fits reads back. -/
theorem Fits.parse_pretty {v : Json} (h : v.Fits) : parse (v.pretty ++ "\n").toList = .ok v := by
  have hb : Blanks ['\n'] := by intro c hc; rw [List.mem_singleton.mp hc]; rfl
  have hread := parse_write isBlank_indented h.readable h.shallow hb
  rwa [String.toList_append, pretty, String.toList_ofList]

/-! ## What reading gives -/

theorem mem_put {ms : Members} {key : Label} {v : Json} {m : Label × Json} (h : m ∈ ms.put key v) :
    m ∈ ms ∨ m = (key, v) := by
  induction ms with
  | nil => exact .inr (List.mem_singleton.mp h)
  | cons o rest ih =>
    obtain ⟨k, w⟩ := o
    by_cases hk : k = key
    · have hput : Members.put ((k, w) :: rest) key v = (k, v) :: rest := if_pos hk
      rw [hput] at h
      rcases List.mem_cons.mp h with rfl | h
      · exact .inr (by rw [hk])
      · exact .inl (List.mem_cons_of_mem _ h)
    · have hput : Members.put ((k, w) :: rest) key v = (k, w) :: Members.put rest key v := if_neg hk
      rw [hput] at h
      rcases List.mem_cons.mp h with rfl | h
      · exact .inl (List.mem_cons_self ..)
      · rcases ih h with h | h
        · exact .inl (List.mem_cons_of_mem _ h)
        · exact .inr h

theorem nodup_put {ms : Members} (h : ms.keys.Nodup) (key : Label) (v : Json) :
    (ms.put key v).keys.Nodup := by
  rw [Members.keys_put]
  split
  · exact h
  · rename_i hk
    refine List.nodup_append.mpr ⟨h, List.nodup_singleton key, ?_⟩
    intro a ha b hb hab
    exact hk (List.mem_singleton.mp hb ▸ hab ▸ ha)

theorem mem_merge (first second : Members) {m : Label × Json} (h : m ∈ first.merge second) :
    m ∈ first ∨ m ∈ second := by
  induction second generalizing first with
  | nil => exact .inl h
  | cons o rest ih =>
    rcases ih (first.put o.1 o.2) h with h | h
    · rcases mem_put h with h | rfl
      · exact .inl h
      · exact .inr (List.mem_cons_self ..)
    · exact .inr (List.mem_cons_of_mem o h)

theorem nodup_merge (first second : Members) (h : first.keys.Nodup) :
    (first.merge second).keys.Nodup := by
  induction second generalizing first with
  | nil => exact h
  | cons o rest ih => exact ih _ (nodup_put h o.1 o.2)

/-- An object whose members are changed by readable values stays readable. -/
theorem Readable.put {ms : Members} (h : Readable (.obj ms)) {key : Label} (hk : IsSound key) {v : Json}
    (hv : Readable v) : Readable (.obj (ms.put key v)) := by
  obtain ⟨hkeys, hn, hr⟩ : (∀ m ∈ ms, IsSound m.1) ∧ ms.keys.Nodup ∧ ∀ m ∈ ms, Readable m.2 := by
    cases h with
    | obj hk hn h => exact ⟨hk, hn, h⟩
  refine .obj (fun m hm => ?_) (nodup_put hn key v) fun m hm => ?_
  · rcases mem_put hm with hm | rfl
    · exact hkeys m hm
    · exact hk
  · rcases mem_put hm with hm | rfl
    · exact hr m hm
    · exact hv

theorem mem_of_get? {ms : Members} {key : Label} {v : Json} (h : ms.get? key = some v) :
    (key, v) ∈ ms := by
  induction ms with
  | nil => cases h
  | cons m rest ih =>
    obtain ⟨k, w⟩ := m
    rw [Members.get?_cons] at h
    split at h
    · rename_i heq
      cases h
      exact heq ▸ List.mem_cons_self ..
    · exact List.mem_cons_of_mem _ (ih h)

theorem Readable.get? {ms : Members} (h : Readable (.obj ms)) {key : Label} {v : Json}
    (hv : ms.get? key = some v) : IsSound key ∧ Readable v := by
  have hmem := mem_of_get? hv
  cases h with
  | obj hk hn h => exact ⟨hk _ hmem, h _ hmem⟩

/-- A value that is no container is nested in any room. -/
theorem nesting_of_isAtom {v : Json} (h : IsAtom v) : v.nesting ≤ room := by
  cases v <;> first | exact h.elim | exact Nat.zero_le _

theorem nesting_put {ms : Members} {key : Label} {v : Json} (h : nesting (.obj ms) ≤ room + 1)
    (hv : v.nesting ≤ room) : nesting (.obj (ms.put key v)) ≤ room + 1 := by
  rw [nesting_obj_le_iff] at h ⊢
  intro m hm
  rcases mem_put hm with hm | rfl
  · exact h m hm
  · exact hv

theorem nesting_get? {ms : Members} (h : nesting (.obj ms) ≤ room + 1) {key : Label} {v : Json}
    (hv : ms.get? key = some v) : v.nesting ≤ room :=
  nesting_obj_le_iff.mp h _ (mem_of_get? hv)

theorem readable_ofLabel {l : Label} (h : IsSound l) : Readable (ofLabel l) ∧ IsAtom (ofLabel l) := by
  cases l with
  | text s => exact ⟨.str s, trivial⟩
  | loose points hloose =>
    obtain ⟨hpoint, hhalf⟩ := Label.areLoose_iff.mp hloose
    exact ⟨.loose ⟨hpoint, h, List.any_eq_true.mpr hhalf⟩, trivial⟩

theorem digitsValue_lt {ds : List Nat} (h : ∀ d ∈ ds, d < 10) :
    Number.digitsValue 10 ds < 10 ^ ds.length := by
  have hstep : ∀ (init : Nat), ds.foldl (fun value d => value * 10 + d) init < (init + 1) * 10 ^ ds.length := by
    induction ds with
    | nil => intro init; simp
    | cons d rest ih =>
      intro init
      have hd := h d (List.mem_cons_self ..)
      have hrest := ih (fun e he => h e (List.mem_cons_of_mem d he)) (init * 10 + d)
      rw [List.foldl_cons, List.length_cons, pow_succ]
      calc _ < (init * 10 + d + 1) * 10 ^ rest.length := hrest
        _ ≤ (init + 1) * 10 * 10 ^ rest.length := Nat.mul_le_mul_right _ (by omega)
        _ = (init + 1) * (10 ^ rest.length * 10) := by ring
  simpa [Number.digitsValue] using hstep 0

theorem mem_takeDigits {s : List Char} : ∀ d ∈ (takeDigits s).1, d < 10 := by
  intro d hd
  obtain ⟨c, hc, rfl⟩ := List.mem_map.mp hd
  have hdigit : isDigit c = true := List.all_eq_true.mp List.all_takeWhile c hc
  simp only [isDigit, Bool.and_eq_true, decide_eq_true_eq] at hdigit
  have h9 : c.toNat ≤ '9'.toNat := hdigit.2
  have h57 : '9'.toNat = 57 := rfl
  have h48 : '0'.toNat = 48 := rfl
  omega

theorem mem_takeWhole {s : List Char} : ∀ d ∈ (takeWhole s).1, d < 10 := by
  unfold takeWhole
  split
  · intro d hd
    rw [List.mem_singleton.mp hd]
    decide
  · exact mem_takeDigits

theorem readable_int {negative : Bool} {ds : List Nat} (h : ∀ d ∈ ds, d < 10) (hne : ds ≠ [])
    (hlen : ds.length ≤ Number.maxDecimalDigits) :
    Readable (.int (Number.signed negative (Number.digitsValue 10 ds))) := by
  have habs : (Number.signed negative (Number.digitsValue 10 ds)).natAbs =
      Number.digitsValue 10 ds := by
    unfold Number.signed
    split <;> omega
  refine .int ?_
  rw [habs, decimalDigits, Nat.toString_eq_repr, Nat.toList_repr]
  refine le_trans ?_ hlen
  exact (Nat.length_toDigits_le_iff (by decide) (List.length_pos_iff.mpr hne)).mpr (digitsValue_lt h)

theorem readable_number {negative : Bool} {s rest : List Char} {v : Json}
    (h : number negative s = .ok (v, rest)) : Readable v ∧ IsAtom v := by
  have hdigits := mem_takeWhole (s := s)
  unfold number at h
  split at h
  · cases h
  · rename_i whole after hne heq
    rw [heq] at hdigits
    dsimp only at h
    split at h
    · split at h
      · cases h
      · rename_i hlen
        cases h
        exact ⟨readable_int hdigits hne (by omega), trivial⟩
    · cases h
      exact ⟨.float (isRead_ofDecimal _ _ _), trivial⟩

theorem readable_word {s rest : List Char} {v : Json} (h : words.findSome? (fun (word, value) =>
    (dropWord? word s).map (value, ·)) = some (v, rest)) : Readable v ∧ IsAtom v := by
  obtain ⟨⟨word, value⟩, hmem, hmap⟩ := List.exists_of_findSome?_eq_some h
  obtain ⟨after, -, hpair⟩ := Option.map_eq_some_iff.mp hmap
  obtain ⟨rfl, -⟩ := Prod.mk.inj hpair
  simp only [words, List.mem_cons, Prod.mk.injEq, List.not_mem_nil, or_false] at hmem
  rcases hmem with ⟨-, rfl⟩ | ⟨-, rfl⟩ | ⟨-, rfl⟩ | ⟨-, rfl⟩ | ⟨-, rfl⟩ | ⟨-, rfl⟩
  · exact ⟨.null, trivial⟩
  · exact ⟨.bool true, trivial⟩
  · exact ⟨.bool false, trivial⟩
  · exact ⟨.float trivial, trivial⟩
  · exact ⟨.float trivial, trivial⟩
  · exact ⟨.float trivial, trivial⟩

theorem readable_atom {s rest : List Char} {v : Json} (h : atom s = .ok (v, rest)) :
    Readable v ∧ IsAtom v := by
  unfold atom at h
  split at h
  · rename_i found hfound
    cases h
    exact readable_word hfound
  · split at h
    · simp only [bind, Except.bind] at h
      split at h
      · cases h
      · rename_i p hp
        cases h
        exact readable_ofLabel (isSound_ofPoints (isPoint_stringBody hp))
    · exact readable_number h
    · exact readable_number h

theorem isSound_memberName {s rest : List Char} {key : Label} (h : memberName s = .ok (key, rest)) :
    IsSound key := by
  unfold memberName at h
  split at h
  · simp only [bind, Except.bind] at h
    split at h
    · cases h
    · rename_i p hp
      split at h
      · cases h
        exact isSound_ofPoints (isPoint_stringBody hp)
      · cases h
  · cases h

/-- What `value`, `items` and `members` read with a bound is readable and nested in the room that there
is. -/
structure ReadsReadable (fuel : Nat) : Prop where
  value : ∀ {room s rest v}, value room fuel s = .ok (v, rest) → Readable v ∧ v.nesting ≤ room
  items : ∀ {room s rest vs}, items room fuel s = .ok (vs, rest) →
    ∀ v ∈ vs, Readable v ∧ v.nesting ≤ room
  members : ∀ {room s rest} {ms : Members}, members room fuel s = .ok (ms, rest) →
    ∀ m ∈ ms, IsSound m.1 ∧ Readable m.2 ∧ m.2.nesting ≤ room

theorem readable_arr {vs : List Json} (h : ∀ v ∈ vs, Readable v ∧ v.nesting ≤ room) :
    Readable (.arr vs) ∧ nesting (.arr vs) ≤ room + 1 :=
  ⟨.arr fun v hv => (h v hv).1, nesting_arr_le_iff.mpr fun v hv => (h v hv).2⟩

theorem readable_merge (ms : Members)
    (h : ∀ m ∈ ms, IsSound m.1 ∧ Readable m.2 ∧ m.2.nesting ≤ room) :
    Readable (.obj (Members.merge [] ms)) ∧ nesting (.obj (Members.merge [] ms)) ≤ room + 1 := by
  have hmem : ∀ m ∈ Members.merge [] ms, m ∈ ms := by
    intro m hm
    rcases mem_merge [] ms hm with hm | hm
    · cases hm
    · exact hm
  refine ⟨.obj (fun m hm => (h m (hmem m hm)).1) (nodup_merge [] ms List.nodup_nil) ?_, ?_⟩
  · exact fun m hm => (h m (hmem m hm)).2.1
  · exact nesting_obj_le_iff.mpr fun m hm => (h m (hmem m hm)).2.2

theorem ReadsReadable.value_succ {fuel : Nat} (ih : ReadsReadable fuel) {s rest : List Char}
    {v : Json} (h : Json.value room (fuel + 1) s = .ok (v, rest)) :
    Readable v ∧ v.nesting ≤ room := by
  rw [Json.value.eq_def] at h
  split at h
  · cases h
  · cases h
  · rename_i heq
    cases heq
    split at h
    · cases h
      exact readable_arr fun v hv => by cases hv
    · simp only [bind, Except.bind] at h
      split at h
      · cases h
      · rename_i p hp
        cases h
        exact readable_arr (ih.items hp)
  · cases h
  · rename_i heq
    cases heq
    split at h
    · cases h
      exact readable_merge [] fun m hm => by cases hm
    · simp only [bind, Except.bind] at h
      split at h
      · cases h
      · rename_i p hp
        cases h
        exact readable_merge p.1 (ih.members hp)
  · exact (readable_atom h).imp_right nesting_of_isAtom

theorem ReadsReadable.items_succ {fuel : Nat} (ih : ReadsReadable fuel) {s rest : List Char}
    {vs : List Json} (h : Json.items room (fuel + 1) s = .ok (vs, rest)) :
    ∀ v ∈ vs, Readable v ∧ v.nesting ≤ room := by
  rw [Json.items.eq_def] at h
  simp only [bind, Except.bind] at h
  split at h
  · cases h
  · rename_i p hp
    have hfirst := ih.value hp
    split at h
    · split at h
      · cases h
      · rename_i q hq
        cases h
        intro v hv
        rcases List.mem_cons.mp hv with rfl | hv
        · exact hfirst
        · exact ih.items hq v hv
    · cases h
      intro v hv
      rw [List.mem_singleton.mp hv]
      exact hfirst
    · cases h

theorem ReadsReadable.members_succ {fuel : Nat} (ih : ReadsReadable fuel) {s rest : List Char}
    {ms : Members} (h : Json.members room (fuel + 1) s = .ok (ms, rest)) :
    ∀ m ∈ ms, IsSound m.1 ∧ Readable m.2 ∧ m.2.nesting ≤ room := by
  rw [Json.members.eq_def] at h
  simp only [bind, Except.bind] at h
  split at h
  · cases h
  · rename_i n hn
    have hkey := isSound_memberName hn
    split at h
    · cases h
    · rename_i p hp
      have hfirst := ih.value hp
      split at h
      · split at h
        · cases h
        · rename_i q hq
          cases h
          intro m hm
          rcases List.mem_cons.mp hm with rfl | hm
          · exact ⟨hkey, hfirst⟩
          · exact ih.members hq m hm
      · cases h
        intro m hm
        rw [List.mem_singleton.mp hm]
        exact ⟨hkey, hfirst⟩
      · cases h

theorem readsReadable (fuel : Nat) : ReadsReadable fuel := by
  induction fuel with
  | zero =>
    refine ⟨?_, ?_, ?_⟩
    · intro room s rest v h
      cases h
    · intro room s rest vs h
      cases h
    · intro room s rest ms h
      cases h
  | succ fuel ih => exact ⟨ih.value_succ, ih.items_succ, ih.members_succ⟩

/-- Reading gives values that fit. -/
theorem fits_of_parse {s : List Char} {v : Json} (h : parse s = .ok v) : v.Fits := by
  unfold parse at h
  simp only [bind, Except.bind] at h
  split at h
  · cases h
  · rename_i p hp
    split at h
    · cases h
      obtain ⟨hread, hnesting⟩ := (readsReadable _).value hp
      exact ⟨hread, hnesting⟩
    · cases h

theorem parse?_eq_some {s : String} {v : Json} : parse? s = some v ↔ parse s.toList = .ok v := by
  unfold parse?
  cases parse s.toList with
  | ok value => exact ⟨fun h => by cases h; rfl, fun h => by cases h; rfl⟩
  | error e => exact iff_of_false (fun h => by cases h) fun h => by cases h

theorem fits_of_parse? {s : String} {v : Json} (h : parse? s = some v) : v.Fits :=
  fits_of_parse (parse?_eq_some.mp h)

end Checkup.Json
