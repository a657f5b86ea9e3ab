import Checkup.Proofs.Tree.Writing

/-!
# What is seen in a tree without links

Looking at a location that fits does not fail: what stands there decides what is seen, and where nothing
stands, on a way that may end early, nothing is seen.

* `walk_absent`: a way to a location where nothing stands.
* `holdsAt_eq`, `isFolder?_eq`, `exists?_eq`: what is seen at a location.
-/

namespace Checkup.Tree

variable {t : Tree}

theorem walk_absent {onLink : Location → String → List String → Except Fault Place} (h : t.Ordinary)
    {here steps : Location} (hplain : Plain steps)
    (hshort : ∀ name ∈ steps, name.utf8ByteSize ≤ maxNameBytes)
    (hnone : t.node? (here ++ steps) = none) :
    (∃ l, t.walk onLink here steps = .ok (.vacant l)) ∨
      ∃ fault, Fault.saysAbsent fault = true ∧ t.walk onLink here steps = .error fault := by
  induction steps generalizing here with
  | nil =>
    rw [List.append_nil] at hnone
    rw [walk, hnone]
    exact .inr ⟨.missing, rfl, rfl⟩
  | cons name rest ih =>
    obtain ⟨⟨hhere, hup⟩, hrest⟩ := List.forall_mem_cons.mp hplain
    obtain ⟨hname, hnames⟩ := List.forall_mem_cons.mp hshort
    rw [List.append_cons] at hnone
    cases hnode : t.node? here with
    | none =>
      rw [walk.eq_def]
      dsimp only
      rw [hnode]
      exact .inr ⟨.missing, rfl, rfl⟩
    | some node =>
      cases node with
      | file bytes =>
        rw [walk_file hnode]
        exact .inr ⟨.notFolder, rfl, rfl⟩
      | link target => exact absurd hnode h.no_link
      | folder =>
        rw [walk_below hnode ⟨hhere, hup, hname⟩]
        cases hchild : t.node? (here ++ [name]) with
        | none =>
          dsimp only
          split
          · exact .inl ⟨_, rfl⟩
          · exact .inr ⟨.missing, rfl, rfl⟩
        | some child =>
          cases child with
          | link target => exact absurd hchild h.no_link
          | file bytes => exact ih hrest hnames hnone
          | folder => exact ih hrest hnames hnone

theorem access_existing (h : t.Ordinary) {l : Location} {node : Node} (hl : t.node? l = some node)
    (hfits : Fits l) : t.access l = .ok (l, node) := by
  rw [access, find_existing h hl hfits]

/-- What stands at a place decides what is seen there. -/
theorem holdsAt_eq (h : t.Ordinary) {l : Location} (hplain : Plain l) (hfits : Fits l)
    (property : Node → Bool) : t.holdsAt l property = .ok ((t.node? l).any property) := by
  unfold holdsAt
  cases hnode : t.node? l with
  | some node =>
    rw [access_existing h hnode hfits]
    rfl
  | none =>
    have habsent : (∃ k, t.follow maxLinks [] l = .ok (.vacant k)) ∨
        ∃ fault, Fault.saysAbsent fault = true ∧ t.follow maxLinks [] l = .error fault :=
      walk_absent h hplain hfits.name hnode
    unfold access find
    rw [if_neg (Nat.not_lt.mpr hfits.path)]
    rcases habsent with ⟨k, hk⟩ | ⟨fault, habsent, hfault⟩
    · rw [hk]
      rfl
    · rw [hfault]
      dsimp only
      rw [if_pos habsent]
      rfl

theorem isFolder?_eq (h : t.Ordinary) {l : Location} (hplain : Plain l) (hfits : Fits l) :
    t.isFolder? l = .ok (decide (t.node? l = some .folder)) := by
  unfold isFolder?
  rw [holdsAt_eq h hplain hfits]
  cases t.node? l with
  | none => rfl
  | some node => simp

theorem exists?_eq (h : t.Ordinary) {l : Location} (hplain : Plain l) (hfits : Fits l) :
    t.exists? l = .ok (t.node? l).isSome := by
  unfold exists?
  rw [holdsAt_eq h hplain hfits]
  cases t.node? l with
  | none => rfl
  | some node => rfl

end Checkup.Tree
