import Checkup.Proofs.Json.RoundTrip
import Checkup.Proofs.Outcome
import Checkup.Proofs.Report.Labels
import Checkup.Proofs.Run.Results
import Checkup.Proofs.Tree.Writing
import Checkup.Service.Basic

/-!
# Bodies of requests and responses

A body that is the JSON text of an object is taken for what it is: it begins with ASCII characters, so it
is not taken for a text in another encoding. A response is sent as UTF-8. A result goes out if and only
if all that it says is text: half of a pair in a name or in a version makes it one that cannot be sent,
and the request is said to be wrong.

* `Json.ofBytes_of_parse`: the encoding of an object's text.
* `Service.Payload.ofBody_of_parse`: what is read from an object's text.
* `Diagnosis.isShowable_toJson_iff`: the results that can be sent.
* `Service.responseOf_run`: the response to a run that comes to a result.
-/

namespace Checkup

namespace Json

/-! ## How the text of an object begins -/

theorem quote_of_members {room fuel : Nat} {s : List Char} {p : Members × List Char}
    (h : members room fuel s = .ok p) : ∃ more, s = '"' :: more := by
  rw [members.eq_def] at h
  split at h
  · cases h
  · obtain ⟨name, hname, -⟩ := Except.bind_eq_ok.mp h
    unfold memberName at hname
    split at hname
    · exact ⟨_, rfl⟩
    · cases hname

/-- An object begins with a brace, behind which comes another one or a quote. -/
theorem value_eq_obj {room fuel : Nat} {s rest : List Char} {ms : Members}
    (h : value room fuel s = .ok (.obj ms, rest)) : ∃ c inner more, s = '\x7b' :: inner ∧
      skipSpace inner = c :: more ∧ (c = '\x7d' ∨ c = '"') := by
  rw [value.eq_def] at h
  split at h
  · cases h
  · cases h
  · split at h
    · cases h
    · obtain ⟨p, -, hp⟩ := Except.bind_eq_ok.mp h
      cases hp
  · cases h
  · rename_i inner
    split at h
    · rename_i more heq
      exact ⟨'\x7d', inner, more, rfl, heq, .inl rfl⟩
    · obtain ⟨p, hp, -⟩ := Except.bind_eq_ok.mp h
      obtain ⟨more, hmore⟩ := quote_of_members hp
      exact ⟨'"', inner, more, rfl, hmore, .inr rfl⟩
  · exact (readable_atom h).2.elim

/-- The characters with which the text of an object can begin. -/
def Opens (c : Char) : Prop := isSpace c = true ∨ c = '\x7b' ∨ c = '\x7d' ∨ c = '"'

instance (c : Char) : Decidable (Opens c) := inferInstanceAs (Decidable (_ ∨ _))

theorem opens_of_skipSpace {s more : List Char} {c : Char} (h : skipSpace s = c :: more)
    (hc : Opens c) : ∃ first rest, s = first :: rest ∧ Opens first := by
  cases s with
  | nil => cases h
  | cons first rest =>
    refine ⟨first, rest, rfl, ?_⟩
    by_cases hspace : isSpace first = true
    · exact .inl hspace
    · rw [skipSpace, List.dropWhile_cons_of_neg hspace] at h
      exact (List.cons_eq_cons.mp h).1 ▸ hc

/-- The text of an object begins with two ASCII characters. -/
theorem opens_of_parse {s : List Char} {ms : Members} (h : parse s = .ok (.obj ms)) :
    ∃ a b rest, s = a :: b :: rest ∧ Opens a ∧ Opens b := by
  obtain ⟨⟨v, after⟩, hvalue, hrest⟩ := Except.bind_eq_ok.mp h
  have hv : v = .obj ms := by
    dsimp only at hrest
    split at hrest <;> cases hrest
    rfl
  subst hv
  obtain ⟨c, inner, more, hinner, hmore, hc⟩ := value_eq_obj hvalue
  cases s with
  | nil => cases hinner
  | cons a rest =>
    by_cases hspace : isSpace a = true
    · rw [skipSpace, List.dropWhile_cons_of_pos hspace] at hinner
      obtain ⟨b, rest, rfl, hb⟩ := opens_of_skipSpace hinner (.inr (.inl rfl))
      exact ⟨a, b, rest, rfl, .inl hspace, hb⟩
    · rw [skipSpace, List.dropWhile_cons_of_neg hspace] at hinner
      obtain ⟨rfl, rfl⟩ := List.cons_eq_cons.mp hinner
      obtain ⟨b, rest, rfl, hb⟩ := opens_of_skipSpace hmore (.inr (.inr hc))
      exact ⟨'\x7b', b, rest, rfl, .inr (.inl rfl), hb⟩

/-! ## Bytes -/

theorem toList_loop (bytes : ByteArray) (i : Nat) (r : List UInt8) :
    ByteArray.toList.loop bytes i r = r.reverse ++ bytes.data.toList.drop i := by
  fun_induction ByteArray.toList.loop bytes i r with
  | case1 i r h ih =>
    have hlt : i < bytes.data.toList.length := h
    have hget : bytes.get! i = bytes.data.toList[i] := by
      show bytes.data[i]! = _
      rw [getElem!_pos bytes.data i h]
      rfl
    rw [ih, List.drop_eq_getElem_cons hlt, hget, List.reverse_cons, List.append_assoc]
    rfl
  | case2 i r h =>
    have hle : bytes.data.toList.length ≤ i := Nat.le_of_not_lt h
    rw [List.drop_of_length_le hle, List.append_nil]

/-- The bytes of a text are those of its characters. -/
theorem toList_toUTF8 (s : String) : s.toUTF8.toList = s.toList.flatMap String.utf8EncodeChar := by
  have hbytes : s.toUTF8 = s.toList.utf8Encode := by
    rw [String.toUTF8_eq_toByteArray, ← String.toByteArray_ofList, String.ofList_toList]
  rw [ByteArray.toList, toList_loop, hbytes, List.utf8Encode, List.data_toByteArray]
  simp

theorem utf8EncodeChar_of_opens {c : Char} (h : Opens c) :
    ∃ byte : UInt8, byte ≠ 0 ∧ String.utf8EncodeChar c = [byte] := by
  have hascii : ∀ c : Char, c.utf8Size = 1 → c.val.toUInt8 ≠ 0 →
      ∃ byte : UInt8, byte ≠ 0 ∧ String.utf8EncodeChar c = [byte] := fun c hsize hne =>
    ⟨c.val.toUInt8, hne, String.utf8EncodeChar_eq_singleton hsize⟩
  rcases h with h | rfl | rfl | rfl
  · simp only [isSpace, Bool.or_eq_true, beq_iff_eq] at h
    rcases h with ((rfl | rfl) | rfl) | rfl <;> exact hascii _ rfl (by decide)
  · exact hascii _ rfl (by decide)
  · exact hascii _ rfl (by decide)
  · exact hascii _ rfl (by decide)

/-- The text of an object is taken for UTF-8. -/
theorem ofBytes_of_parse {s : String} {ms : Members} (h : parse s.toList = .ok (.obj ms)) :
    Encoding.ofBytes s.toUTF8.toList = .utf8 := by
  obtain ⟨a, b, rest, heq, ha, hb⟩ := opens_of_parse h
  obtain ⟨x, hx, hax⟩ := utf8EncodeChar_of_opens ha
  obtain ⟨y, hy, hby⟩ := utf8EncodeChar_of_opens hb
  rw [toList_toUTF8, heq, List.flatMap_cons, List.flatMap_cons, hax, hby]
  exact Encoding.ofBytes_of_ascii hx hy _

end Json

namespace Service

/-- What is read from an object's text. -/
theorem Payload.ofBody_of_parse {body contentType : String} {ms : Json.Members}
    (htype : isJsonType contentType = true) (h : Json.parse body.toList = .ok (.obj ms)) :
    Payload.ofBody contentType body = Payload.ofMembers ms := by
  obtain ⟨a, b, rest, heq, ha, -⟩ := Json.opens_of_parse h
  have hbody : body ≠ "" := by
    rintro rfl
    cases heq
  have hmark : withoutMark body.toList = body.toList := by
    have hne : a ≠ '\ufeff' := by
      rintro rfl
      exact absurd ha (by decide)
    rw [heq, withoutMark, if_neg (by simpa using hne)]
  unfold Payload.ofBody
  rw [Json.ofBytes_of_parse h, Json.Encoding.decode?, Tree.fromUTF8?_toUTF8, htype]
  simp [hbody, hmark, h]

end Service

/-! ## Results that can be sent -/

/-- All that a result says is text. -/
def Diagnosis.IsText (d : Diagnosis) : Prop := ∀ l ∈ d.labels, l.isText = true

namespace Service

@[simp]
theorem areShowable_map_iff {α : Type} {toJson : α → Json} {values : List α} :
    areShowable (values.map toJson) = true ↔ ∀ value ∈ values, isShowable (toJson value) = true := by
  induction values with
  | nil => simp [areShowable]
  | cons value rest ih => simp [areShowable, ih]

@[simp]
theorem isShowable_ofLabel (l : Label) : isShowable (.ofLabel l) = l.isText := by
  cases l <;> rfl

@[simp]
theorem isShowable_ofLabel?_iff {l : Option Label} :
    isShowable (.ofLabel? l) = true ↔ ∀ m ∈ l, m.isText = true := by
  cases l <;> simp [Json.ofLabel?, isShowable]

@[simp]
theorem isShowable_ofInt? (n : Option Int) : isShowable (.ofInt? n) = true := by
  cases n <;> rfl

end Service

open Service

theorem Finding.isShowable_toJson_iff {f : Finding} :
    isShowable f.toJson = true ↔ ∀ l ∈ f.labels, l.isText = true := by
  simp [toJson, labels, isShowable, membersAreShowable, Label.isText]

theorem Workspace.isShowable_toJson_iff {w : Workspace} :
    isShowable w.toJson = true ↔ w.name.isText = true := by
  simp [toJson, isShowable, membersAreShowable, Label.isText]

theorem Project.isShowable_toJson_iff {p : Project} :
    isShowable p.toJson = true ↔ ∀ l ∈ p.labels, l.isText = true := by
  simp only [toJson, isShowable, membersAreShowable, Label.isText, Bool.and_eq_true,
    isShowable_ofLabel, isShowable_ofLabel?_iff, labels, workspaceList, List.forall_mem_cons,
    List.forall_mem_append, Option.mem_toList, List.forall_mem_map]
  cases p.workspaces with
  | none =>
    simp only [isShowable, Option.getD_none]
    tauto
  | some ws =>
    simp only [isShowable, areShowable_map_iff, Workspace.isShowable_toJson_iff, Option.getD_some]
    tauto

theorem RuleResult.isShowable_toJson_iff {r : RuleResult} :
    isShowable r.toJson = true ↔ ∀ f ∈ r.findings, ∀ l ∈ f.labels, l.isText = true := by
  simp [toJson, isShowable, membersAreShowable, Label.isText, Finding.isShowable_toJson_iff]

/-- The results that can be sent, if the findings of the rules are those of the result. -/
theorem Diagnosis.isShowable_toJson_iff {d : Diagnosis}
    (hresults : ∀ r ∈ d.results, ∀ f ∈ r.findings, f ∈ d.findings) :
    isShowable d.toJson = true ↔ d.IsText := by
  have hsame : (∀ f ∈ d.findings, ∀ l ∈ f.labels, l.isText = true) →
      ∀ r ∈ d.results, ∀ f ∈ r.findings, ∀ l ∈ f.labels, l.isText = true :=
    fun h r hr f hf => h f (hresults r hr f hf)
  simp only [toJson, isShowable, membersAreShowable, Label.isText, Bool.and_eq_true,
    areShowable_map_iff, Finding.isShowable_toJson_iff, Project.isShowable_toJson_iff,
    RuleResult.isShowable_toJson_iff, isShowable_ofInt?, IsText, labels, List.forall_mem_append,
    List.forall_mem_flatMap]
  tauto

namespace Service

/-- A run's result is sent as it is if all that it says is text. Otherwise the request is said to be
wrong. -/
theorem responseOf_run {t t' : Tree} {current : List String} {path : String} {o : Options}
    {d : Diagnosis} (h : run none t current path o = (.ok d, t')) :
    (d.IsText → responseOf (.ok d) = ⟨200, d.toJson⟩) ∧
      (¬ d.IsText → (responseOf (.ok d)).status = 400) := by
  have hshown : isShowable d.toJson = true ↔ d.IsText := by
    obtain ⟨p, -, rfl, -⟩ := Run.run_eq_ok.mp h
    exact Diagnosis.isShowable_toJson_iff fun r hr f hf =>
      (Run.perm_findings_results _).subset (List.mem_flatMap.mpr ⟨r, hr, hf⟩)
  unfold responseOf
  dsimp only
  constructor
  · exact fun htext => if_pos (hshown.mpr htext)
  · intro htext
    rw [if_neg fun h => htext (hshown.mp h)]
    rfl

end Service

end Checkup
