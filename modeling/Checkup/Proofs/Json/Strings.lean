import Checkup.Json.Parser
import Checkup.Json.Printer
import Mathlib.Data.List.Chain

/-!
# Strings in JSON text

A string is written by its code points and read by UTF-16 units, which are joined to code points
again. Nothing is lost on the way unless a high unit stands before a low one.

* `Escaped`, `escaped_escapeChar`: how a character is written.
* `stringBody_points`: written code points are read as they were.
* `atom_quoted`, `atom_quotedPoints`, `memberName_keyText`: strings and names read back.
* `isLoose_of_stringBody`: what is read from quotes is written so that it is read again.
-/

namespace Checkup.Json

open Label (pointsOf)
open Text (isHighUnit isLowUnit isHalf pointUnits joinPairs pairValue IsPoint isPoint_toNat
  toNat_ofNat_of_not_half)

/-! ## Escapes -/

theorem hexValue?_hexDigit_all :
    ∀ d : Fin 16, Text.hexValue? (Number.hexDigit d.val) = some d.val := by decide

theorem hexValue?_hexDigit {d : Nat} (h : d < 16) : Text.hexValue? (Number.hexDigit d) = some d :=
  hexValue?_hexDigit_all ⟨d, h⟩

/-- What is read after an escape is preceded by its unit. -/
def consUnits (units : List Nat) : List Nat × List Char → List Nat × List Char :=
  fun (later, rest) => (units ++ later, rest)

theorem stringUnits?_unitEscape {n : Nat} (h : n < 0x10000) (rest : List Char) :
    stringUnits? (unitEscape n ++ rest) = (stringUnits? rest).map (consUnits [n]) := by
  have hunit : hexUnit? (Number.hexDigit (n / 4096 % 16)) (Number.hexDigit (n / 256 % 16))
      (Number.hexDigit (n / 16 % 16)) (Number.hexDigit (n % 16)) = some n := by
    have hn : (((n / 4096 % 16) * 16 + n / 256 % 16) * 16 + n / 16 % 16) * 16 + n % 16 = n := by omega
    simp only [hexUnit?, hexValue?_hexDigit (Nat.mod_lt _ (by decide : 16 > 0)), Option.bind_eq_bind,
      Option.bind_some, Option.pure_def, hn]
  simp only [unitEscape, List.cons_append, List.nil_append, stringUnits?, hunit,
    Option.bind_eq_bind, Option.bind_some]
  cases stringUnits? rest with
  | none => rfl
  | some p => rfl

theorem stringUnits?_unitEscapes {units : List Nat} (h : ∀ n ∈ units, n < 0x10000)
    (rest : List Char) :
    stringUnits? (units.flatMap unitEscape ++ rest) = (stringUnits? rest).map (consUnits units) := by
  induction units with
  | nil =>
    cases hr : stringUnits? rest with
    | none => simp [hr]
    | some p => simp [hr, consUnits]
  | cons n more ih =>
    rw [List.flatMap_cons, List.append_assoc, stringUnits?_unitEscape (h n (List.mem_cons_self ..)),
      ih fun m hm => h m (List.mem_cons_of_mem n hm)]
    cases stringUnits? rest with
    | none => rfl
    | some p => rfl

theorem stringUnits?_short {c : Char} {n : Nat} (h : shortEscape? c = some n) (hc : c ≠ 'u')
    (rest : List Char) :
    stringUnits? ('\\' :: c :: rest) = (stringUnits? rest).map (consUnits [n]) := by
  rw [stringUnits?.eq_def]
  split
  · rename_i heq
    cases heq
  · rename_i heq
    exact absurd (List.cons.inj heq).1 (by decide)
  · rename_i heq
    exact absurd (List.cons.inj (List.cons.inj heq).2).1 hc
  · rename_i heq
    obtain ⟨rfl, rfl⟩ := List.cons.inj (List.cons.inj heq).2
    rw [h]
    cases stringUnits? rest with
    | none => rfl
    | some p => rfl
  · rename_i _ hno heq
    obtain ⟨rfl, rfl⟩ := List.cons.inj heq
    exact absurd rfl (hno c rest rfl)

theorem stringUnits?_plain {c : Char} (h1 : c ≠ '"') (h2 : c ≠ '\\') (h3 : 0x20 ≤ c.toNat)
    (rest : List Char) :
    stringUnits? (c :: rest) = (stringUnits? rest).map (consUnits [c.toNat]) := by
  rw [stringUnits?.eq_def]
  split
  · rename_i heq
    cases heq
  · rename_i heq
    exact absurd (List.cons.inj heq).1 h1
  · rename_i heq
    exact absurd (List.cons.inj heq).1 h2
  · rename_i heq
    exact absurd (List.cons.inj heq).1 h2
  · rename_i heq
    obtain ⟨rfl, rfl⟩ := List.cons.inj heq
    rw [if_neg (by simp [h2]; omega)]
    cases stringUnits? rest with
    | none => rfl
    | some p => rfl

theorem pointUnits_lt {n : Nat} (h : n < 0x110000) : ∀ u ∈ pointUnits n, u < 0x10000 := by
  intro u hu
  unfold pointUnits at hu
  split at hu
  · obtain rfl := List.mem_singleton.mp hu
    assumption
  · simp only [List.mem_cons, List.not_mem_nil, or_false] at hu
    rcases hu with hu | hu
    · omega
    · omega

theorem pointUnits_of_lt {n : Nat} (h : n < 0x10000) : pointUnits n = [n] := if_pos h

theorem lt_of_shortEscape {c : Char} {n : Nat} (h : shortEscape? c = some n) : n < 0x80 := by
  unfold shortEscape? at h
  split at h <;> cases h <;> decide

/-- How a character stands in a string: as a mark behind a backslash, as it is, or as the escapes of
its units. -/
inductive Escaped (c : Char) : List Char → Prop
  | short {mark : Char} (hmark : shortEscape? mark = some c.toNat) : Escaped c ['\\', mark]
  | plain (hquote : c ≠ '"') (hescape : c ≠ '\\') (hcontrol : 0x20 ≤ c.toNat) (hascii : c.toNat ≤ 0x7E) :
    Escaped c [c]
  | units : Escaped c ((pointUnits c.toNat).flatMap unitEscape)

theorem escaped_escapeChar (c : Char) : Escaped c (escapeChar c) := by
  unfold escapeChar
  split
  · exact .short (by subst c; rfl)
  split
  · exact .short (by subst c; rfl)
  split
  · exact .short (by subst c; rfl)
  split
  · exact .short (by subst c; rfl)
  split
  · exact .short (by subst c; rfl)
  split
  · exact .short (by subst c; rfl)
  split
  · exact .short (by subst c; rfl)
  rename_i hquote hescape _ _ _ _ _
  split
  · rename_i h
    exact .plain hquote hescape h.1 h.2
  · exact .units

theorem stringUnits?_escapeChar (c : Char) (rest : List Char) :
    stringUnits? (escapeChar c ++ rest) =
      (stringUnits? rest).map (consUnits (pointUnits c.toNat)) := by
  have hc : c.toNat < 0x110000 := by
    rcases (show c.toNat < 0xD800 ∨ (0xDFFF < c.toNat ∧ c.toNat < 0x110000) from c.valid) with h | h
    · omega
    · exact h.2
  have hescaped := escaped_escapeChar c
  generalize escapeChar c = text at hescaped ⊢
  cases hescaped with
  | @short mark hmark =>
    have hunit : mark ≠ 'u' := by
      rintro rfl
      cases hmark
    have hlt := lt_of_shortEscape hmark
    rw [pointUnits_of_lt (by omega)]
    exact stringUnits?_short hmark hunit rest
  | plain hquote hescape hcontrol hascii =>
    rw [pointUnits_of_lt (by omega)]
    exact stringUnits?_plain hquote hescape hcontrol rest
  | units => exact stringUnits?_unitEscapes (pointUnits_lt hc) rest

theorem stringUnits?_escapePoint {n : Nat} (h : IsPoint n) (rest : List Char) :
    stringUnits? (escapePoint n ++ rest) = (stringUnits? rest).map (consUnits (pointUnits n)) := by
  unfold escapePoint
  split
  · rename_i hhalf
    have hlt := (Text.isHalf_iff n).mp hhalf
    rw [pointUnits_of_lt (by omega)]
    exact stringUnits?_unitEscape (by omega) rest
  · rename_i hhalf
    have hback := toNat_ofNat_of_not_half h (Bool.eq_false_iff.mpr hhalf)
    rw [stringUnits?_escapeChar, hback]

theorem stringUnits?_points {points : List Nat} (h : ∀ n ∈ points, IsPoint n) (rest : List Char) :
    stringUnits? (points.flatMap escapePoint ++ '"' :: rest) =
      some (points.flatMap pointUnits, rest) := by
  induction points with
  | nil => rfl
  | cons n more ih =>
    rw [List.flatMap_cons, List.append_assoc, stringUnits?_escapePoint (h n (List.mem_cons_self ..)),
      ih fun m hm => h m (List.mem_cons_of_mem n hm)]
    rfl

/-! ## Joining units -/

/-- No high unit stands before a low one. -/
def Apart : List Nat → Prop := List.IsChain fun a b => (isHighUnit a && isLowUnit b) = false

theorem pointUnits_of_ge {n : Nat} (h : 0x10000 ≤ n) : pointUnits n =
    [0xD800 + (n - 0x10000) / 0x400, 0xDC00 + (n - 0x10000) % 0x400] :=
  if_neg (Nat.not_lt.mpr h)

theorem joinPairs_cons_of_not_pair {a b : Nat} (h : (isHighUnit a && isLowUnit b) = false)
    (rest : List Nat) : joinPairs (a :: b :: rest) = a :: joinPairs (b :: rest) := by
  rw [joinPairs, h, if_neg Bool.false_ne_true]

/-- A point is read from its units, whatever follows that does not complete it to a pair. -/
theorem joinPairs_pointUnits {n : Nat} (h : IsPoint n) {more : List Nat}
    (hmore : ∀ u ∈ more.head?, (isHighUnit n && isLowUnit u) = false) :
    joinPairs (pointUnits n ++ more) = n :: joinPairs more := by
  rcases Nat.lt_or_ge n 0x10000 with hlt | hge
  · rw [pointUnits_of_lt hlt, List.singleton_append]
    cases more with
    | nil => rfl
    | cons u rest => exact joinPairs_cons_of_not_pair (hmore u rfl) rest
  · have hn : n < 0x110000 := h
    have hpair := Text.isPair_split (m := n - 0x10000) (by omega)
    rw [pointUnits_of_ge hge, List.cons_append, List.singleton_append, joinPairs, if_pos hpair,
      Text.pairValue_split hge rfl]

theorem head_pointUnits_of_ge {n : Nat} (h : IsPoint n) (hge : 0x10000 ≤ n) :
    ∀ u ∈ (pointUnits n).head?, isLowUnit u = false := by
  intro u hu
  have hn : n < 0x110000 := h
  rw [pointUnits_of_ge hge] at hu
  obtain rfl := Option.some.inj hu
  rw [← Bool.not_eq_true]
  simp only [isLowUnit, Bool.and_eq_true, decide_eq_true_eq]
  omega

/-- The units of points that lie apart join to the same points. -/
theorem joinPairs_points {points : List Nat} (h : ∀ n ∈ points, IsPoint n) (hapart : Apart points) :
    joinPairs (points.flatMap pointUnits) = points := by
  induction points with
  | nil => rfl
  | cons n more ih =>
    rw [List.flatMap_cons, joinPairs_pointUnits (h n (List.mem_cons_self ..)),
      ih (fun m hm => h m (List.mem_cons_of_mem n hm)) hapart.tail]
    intro u hu
    cases more with
    | nil => cases hu
    | cons m rest =>
      have hm : IsPoint m := h m (List.mem_cons_of_mem n (List.mem_cons_self ..))
      have hne : pointUnits m ≠ [] := by
        unfold pointUnits
        split
        · exact List.cons_ne_nil _ _
        · exact List.cons_ne_nil _ _
      rw [List.flatMap_cons, List.head?_append_of_ne_nil _ hne] at hu
      rcases Nat.lt_or_ge m 0x10000 with hlt | hge
      · rw [pointUnits_of_lt hlt] at hu
        obtain rfl := Option.some.inj hu
        exact (List.isChain_cons_cons.mp hapart).1
      · rw [head_pointUnits_of_ge hm hge u hu, Bool.and_false]

theorem stringBody_points {points : List Nat} (h : ∀ n ∈ points, IsPoint n) (hapart : Apart points)
    (rest : List Char) :
    stringBody (points.flatMap escapePoint ++ '"' :: rest) = .ok (points, rest) := by
  rw [stringBody, stringUnits?_points h]
  dsimp only
  rw [joinPairs_points h hapart]

/-! ## Texts and loose strings -/

/-- Code points that a string which is no text may have. -/
structure IsLoose (points : List Nat) : Prop where
  point : ∀ n ∈ points, IsPoint n
  apart : Apart points
  half : points.any isHalf = true

theorem isPoint_pointsOf (s : String) : ∀ n ∈ pointsOf s, IsPoint n := by
  intro n hn
  obtain ⟨c, -, rfl⟩ := List.mem_map.mp hn
  exact isPoint_toNat c

theorem isChain_of_all {R : Nat → Nat → Prop} {l : List Nat} (h : ∀ a ∈ l, ∀ b, R a b) :
    l.IsChain R := by
  induction l with
  | nil => exact .nil
  | cons a rest ih =>
    have hrest := ih fun b hb => h b (List.mem_cons_of_mem a hb)
    cases rest with
    | nil => exact .singleton a
    | cons b more => exact List.isChain_cons_cons.mpr ⟨h a (List.mem_cons_self ..) b, hrest⟩

theorem apart_pointsOf (s : String) : Apart (pointsOf s) := by
  apply isChain_of_all
  intro n hn b
  obtain ⟨c, -, rfl⟩ := List.mem_map.mp hn
  have hhalf := Text.isHalf_toNat c
  simp only [isHalf, Bool.or_eq_false_iff] at hhalf
  rw [hhalf.1, Bool.false_and]

theorem quoted_eq (s : String) : quoted s.toList = quotedPoints (pointsOf s) := by
  have hchar : ∀ c : Char, escapePoint c.toNat = escapeChar c := by
    intro c
    rw [escapePoint, Text.isHalf_toNat, if_neg Bool.false_ne_true, Char.ofNat_toNat]
  rw [quoted, quotedPoints, pointsOf, List.flatMap_map]
  simp only [hchar]

theorem ofPoints_pointsOf (s : String) : ofPoints (pointsOf s) = .str s :=
  congrArg ofLabel (Label.ofPoints_pointsOf s)

/-- A name that is written so that it is read again. -/
def IsSound (name : Label) : Prop := Apart name.points

theorem isSound_text (s : String) : IsSound s := apart_pointsOf s

theorem areLoose_of_isLoose {points : List Nat} (h : IsLoose points) :
    Text.areLoose points = true := by
  obtain ⟨n, hn, hhalf⟩ := List.any_eq_true.mp h.half
  exact Label.areLoose_iff.mpr ⟨h.point, n, hn, hhalf⟩

/-! ## Reading what was written -/

theorem words_quote (rest : List Char) :
    words.findSome? (fun (word, value) => (dropWord? word ('"' :: rest)).map (value, ·)) = none := rfl

theorem atom_quote {points : List Nat} (h : ∀ n ∈ points, IsPoint n) (hapart : Apart points)
    (rest : List Char) : atom (quotedPoints points ++ rest) = .ok (ofPoints points, rest) := by
  have hbody := stringBody_points h hapart rest
  have hshape : quotedPoints points ++ rest = '"' :: (points.flatMap escapePoint ++ '"' :: rest) := by
    simp only [quotedPoints, List.cons_append, List.append_assoc, List.nil_append]
  rw [hshape, atom, words_quote]
  dsimp only
  rw [hbody]
  rfl

theorem atom_quoted (s : String) (rest : List Char) :
    atom (quoted s.toList ++ rest) = .ok (.str s, rest) := by
  rw [quoted_eq, atom_quote (isPoint_pointsOf s) (apart_pointsOf s), ofPoints_pointsOf]

theorem atom_quotedPoints {points : List Nat} (h : IsLoose points) (rest : List Char) :
    atom (quotedPoints points ++ rest) = .ok (.loose points, rest) := by
  have hpoints : Label.ofPoints points = .loose points (areLoose_of_isLoose h) := dif_pos _
  rw [atom_quote h.point h.apart, ofPoints, hpoints]
  rfl

theorem memberName_points {points : List Nat} (h : ∀ n ∈ points, IsPoint n) (hapart : Apart points)
    (rest : List Char) :
    memberName (quotedPoints points ++ ':' :: rest) = .ok (Label.ofPoints points, skipSpace rest) := by
  have hbody := stringBody_points h hapart (':' :: rest)
  have hshape : quotedPoints points ++ ':' :: rest =
      '"' :: (points.flatMap escapePoint ++ '"' :: ':' :: rest) := by
    simp only [quotedPoints, List.cons_append, List.append_assoc, List.nil_append]
  have hcolon : skipSpace (':' :: rest) = ':' :: rest := rfl
  rw [hshape, memberName, hbody]
  simp only [bind, Except.bind, hcolon, pure, Except.pure]

theorem memberName_keyText {key : Label} (h : IsSound key) (rest : List Char) :
    memberName (keyText key ++ ':' :: rest) = .ok (key, skipSpace rest) := by
  have htext : keyText key = quotedPoints key.points := by
    cases key with
    | text s => exact quoted_eq s
    | loose points _ => rfl
  rw [htext, memberName_points (fun _ => Label.point_of_mem) h, Label.ofPoints_points]

/-! ## What reading gives -/

theorem isPoint_hexUnit {a b c d : Char} {n : Nat} (h : hexUnit? a b c d = some n) : IsPoint n := by
  have hdigit : ∀ {c : Char} {k : Nat}, Text.hexValue? c = some k → k < 16 := by
    intro c k hk
    simpa using (Option.filter_eq_some_iff.mp hk).2
  simp only [hexUnit?, Option.bind_eq_bind, Option.bind_eq_some_iff, Option.pure_def,
    Option.some.injEq] at h
  obtain ⟨w, hw, x, hx, y, hy, z, hz, rfl⟩ := h
  have h1 := hdigit hw
  have h2 := hdigit hx
  have h3 := hdigit hy
  have h4 := hdigit hz
  unfold IsPoint
  omega

theorem isPoint_shortEscape {c : Char} {n : Nat} (h : shortEscape? c = some n) : IsPoint n :=
  (lt_of_shortEscape h).trans (by decide)

theorem isPoint_cons {n : Nat} {units : List Nat} (hn : IsPoint n) (h : ∀ m ∈ units, IsPoint m) :
    ∀ m ∈ n :: units, IsPoint m := by
  intro m hm
  rcases List.mem_cons.mp hm with rfl | hm
  · exact hn
  · exact h m hm

theorem isPoint_units {s : List Char} {units : List Nat} {rest : List Char}
    (h : stringUnits? s = some (units, rest)) : ∀ n ∈ units, IsPoint n := by
  fun_induction stringUnits? s generalizing units rest with
  | case1 => cases h
  | case2 more =>
    cases h
    intro n hn
    cases hn
  | case3 a b c d more ih =>
    simp only [Option.bind_eq_bind, Option.bind_eq_some_iff, Option.pure_def, Option.some.injEq] at h
    obtain ⟨n, hn, ⟨later, left⟩, hlater, hpair⟩ := h
    cases hpair
    exact isPoint_cons (isPoint_hexUnit hn) (ih hlater)
  | case4 c more hno ih =>
    simp only [Option.bind_eq_bind, Option.bind_eq_some_iff, Option.pure_def, Option.some.injEq] at h
    obtain ⟨n, hn, ⟨later, left⟩, hlater, hpair⟩ := h
    cases hpair
    exact isPoint_cons (isPoint_shortEscape hn) (ih hlater)
  | case5 c more h1 h2 h3 h4 => cases h
  | case6 c more h1 h2 h3 h4 ih =>
    simp only [Option.bind_eq_bind, Option.bind_eq_some_iff, Option.pure_def, Option.some.injEq] at h
    obtain ⟨⟨later, left⟩, hlater, hpair⟩ := h
    cases hpair
    exact isPoint_cons (isPoint_toNat c) (ih hlater)

theorem pairValue_bounds {n m : Nat} (h : (isHighUnit n && isLowUnit m) = true) :
    0x10000 ≤ pairValue n m ∧ IsPoint (pairValue n m) := by
  simp only [isHighUnit, isLowUnit, Bool.and_eq_true, decide_eq_true_eq] at h
  unfold IsPoint pairValue
  omega

theorem head_joinPairs (m : Nat) (rest : List Nat) :
    ∃ b more, joinPairs (m :: rest) = b :: more ∧ (b = m ∨ 0x10000 ≤ b) := by
  cases rest with
  | nil => exact ⟨m, [], rfl, .inl rfl⟩
  | cons n rest =>
    cases hpair : isHighUnit m && isLowUnit n with
    | true =>
      rw [joinPairs, hpair, if_pos rfl]
      exact ⟨_, _, rfl, .inr (pairValue_bounds hpair).1⟩
    | false => exact ⟨m, _, joinPairs_cons_of_not_pair hpair rest, .inl rfl⟩

theorem apart_joinPairs (units : List Nat) : Apart (joinPairs units) := by
  fun_induction joinPairs units with
  | case1 => exact .nil
  | case2 n => exact .singleton n
  | case3 n m rest hpair ih =>
    have hhigh : isHighUnit (pairValue n m) = false := by
      have hge := (pairValue_bounds hpair).1
      rw [← Bool.not_eq_true]
      simp only [isHighUnit, Bool.and_eq_true, decide_eq_true_eq]
      omega
    generalize joinPairs rest = points at *
    cases points with
    | nil => exact .singleton _
    | cons b more =>
      refine List.isChain_cons_cons.mpr ⟨?_, ih⟩
      rw [hhigh, Bool.false_and]
  | case4 n m rest hpair ih =>
    obtain ⟨b, more, hb, hor⟩ := head_joinPairs m rest
    rw [hb] at ih ⊢
    refine List.isChain_cons_cons.mpr ⟨?_, ih⟩
    rcases hor with rfl | hge
    · exact Bool.eq_false_iff.mpr hpair
    · have hlow : isLowUnit b = false := by
        rw [← Bool.not_eq_true]
        simp only [isLowUnit, Bool.and_eq_true, decide_eq_true_eq]
        omega
      rw [hlow, Bool.and_false]

theorem isPoint_joinPairs {units : List Nat} (h : ∀ n ∈ units, IsPoint n) :
    ∀ n ∈ joinPairs units, IsPoint n := by
  fun_induction joinPairs units with
  | case1 => exact h
  | case2 n => exact h
  | case3 n m rest hpair ih =>
    refine isPoint_cons (pairValue_bounds hpair).2 (ih fun j hj => ?_)
    exact h j (List.mem_cons_of_mem n (List.mem_cons_of_mem m hj))
  | case4 n m rest hpair ih =>
    exact isPoint_cons (h n (List.mem_cons_self ..)) (ih fun j hj => h j (List.mem_cons_of_mem n hj))

theorem isPoint_stringBody {s : List Char} {points : List Nat} {rest : List Char}
    (h : stringBody s = .ok (points, rest)) : (∀ n ∈ points, IsPoint n) ∧ Apart points := by
  unfold stringBody at h
  split at h
  · rename_i units more hunits
    cases h
    exact ⟨isPoint_joinPairs (isPoint_units hunits), apart_joinPairs units⟩
  · cases h

theorem isSound_ofPoints {points : List Nat} (h : (∀ n ∈ points, IsPoint n) ∧ Apart points) :
    IsSound (Label.ofPoints points) := by
  rw [IsSound, Label.points_ofPoints h.1]
  exact h.2

end Checkup.Json
