import Mathlib.Logic.Function.Basic
import Mathlib.Logic.Relation
import Checkup.Tree.Basic

/-!
# Work under locks

Requests are worked on side by side: each waits for its lock, works on the tree operation by
operation, and gives the lock back. Between two operations of one request others may operate, unless
they need the same lock. What an operation does may depend on all that the work has seen before, so a
file may be read by one operation and written back by a later one.

* `Step`: what may happen next.
* `alone`: two requests that work at a time have different locks.
* `orderly_of_reaches`: requests that share a lock are worked on one after the other.
-/

namespace Checkup.Service

variable {ι α : Type}

/-- Work on a tree. An operation sees the tree, may change it, and says how the work goes on. -/
inductive Work (α : Type)
  | done (result : α)
  | operate (change : Tree → Tree) (next : Tree → Work α)

/-- What work comes to on a tree that nothing else changes. -/
def Work.play : Work α → Tree → α × Tree
  | done result, t => (result, t)
  | operate change next, t => (next t).play (change t)

/-- Work that is done while a lock is held. -/
structure Job (α : Type) where
  lock : Nat
  work : Work α

/-- How far a request has come. -/
inductive Stage (α : Type)
  | waiting
  | working (rest : Work α)
  | finished (result : α)

/-- The tree, and how far each request has come. -/
structure Scene (ι α : Type) where
  tree : Tree
  stage : ι → Stage α

namespace Scene

/-- No request is worked on yet. -/
def start (t : Tree) : Scene ι α := ⟨t, fun _ => .waiting⟩

/-- Someone works on the request. -/
def Busy (s : Scene ι α) (i : ι) : Prop := ∃ rest, s.stage i = .working rest

variable [DecidableEq ι]

/-- The scene with another tree, after a request has come to a stage. -/
def move (s : Scene ι α) (t : Tree) (i : ι) (stage : Stage α) : Scene ι α :=
  ⟨t, Function.update s.stage i stage⟩

variable {s : Scene ι α} {t : Tree} {i j : ι} {stage : Stage α}

@[simp]
theorem stage_move_self : (s.move t i stage).stage i = stage := Function.update_self ..

theorem stage_move_of_ne (h : j ≠ i) : (s.move t i stage).stage j = s.stage j :=
  Function.update_of_ne h ..

theorem busy_of_move (h : (s.move t i stage).Busy j) : j = i ∨ s.Busy j := by
  by_cases hji : j = i
  · exact .inl hji
  · obtain ⟨rest, hrest⟩ := h
    rw [stage_move_of_ne hji] at hrest
    exact .inr ⟨rest, hrest⟩

/-- A request that moves on without an answer changes no answer. -/
theorem finished_move_iff (hold : ∀ result, s.stage i ≠ .finished result)
    (hnew : ∀ result, stage ≠ .finished result) {result : α} :
    (s.move t i stage).stage j = .finished result ↔ s.stage j = .finished result := by
  by_cases hji : j = i
  · subst hji
    rw [stage_move_self]
    exact iff_of_false (hnew result) (hold result)
  · rw [stage_move_of_ne hji]

end Scene

variable [DecidableEq ι] {jobs : ι → Job α} {t : Tree} {s s' : Scene ι α}

/-- What may happen next. -/
inductive Step (jobs : ι → Job α) (s : Scene ι α) : Scene ι α → Prop
  /-- A request takes its lock, which no request holds. -/
  | enter (i : ι) (hwaiting : s.stage i = .waiting)
    (hfree : ∀ j, s.Busy j → (jobs j).lock ≠ (jobs i).lock) :
    Step jobs s (s.move s.tree i (.working (jobs i).work))
  /-- The next operation of a request. -/
  | operate (i : ι) {change : Tree → Tree} {next : Tree → Work α}
    (hworking : s.stage i = .working (.operate change next)) :
    Step jobs s (s.move (change s.tree) i (.working (next s.tree)))
  /-- A request is answered and gives its lock back. -/
  | leave (i : ι) {result : α} (hdone : s.stage i = .working (.done result)) :
    Step jobs s (s.move s.tree i (.finished result))

/-- What may happen to requests that come in on a tree. -/
def Reaches (jobs : ι → Job α) (t : Tree) (s : Scene ι α) : Prop :=
  Relation.ReflTransGen (Step jobs) (Scene.start t) s

/-! ## Locks -/

/-- Requests that work at a time have different locks. -/
def Scene.Alone (jobs : ι → Job α) (s : Scene ι α) : Prop :=
  ∀ i j, s.Busy i → s.Busy j → (jobs i).lock = (jobs j).lock → i = j

/-- A request that is worked on takes no further lock when it moves on. -/
theorem Scene.Alone.move (ha : s.Alone jobs) {i : ι} (hi : s.Busy i) {stage : Stage α} :
    (s.move t i stage).Alone jobs := by
  have hbusy : ∀ j, (s.move t i stage).Busy j → s.Busy j := by
    intro j hj
    rcases Scene.busy_of_move hj with rfl | hj
    · exact hi
    · exact hj
  exact fun j k hj hk hlock => ha j k (hbusy j hj) (hbusy k hk) hlock

theorem Step.alone (h : Step jobs s s') (ha : s.Alone jobs) : s'.Alone jobs := by
  intro j k hj hk hlock
  cases h with
  | enter i hwaiting hfree =>
    rcases Scene.busy_of_move hj with rfl | hj' <;> rcases Scene.busy_of_move hk with rfl | hk'
    · rfl
    · exact absurd hlock.symm (hfree k hk')
    · exact absurd hlock (hfree j hj')
    · exact ha j k hj' hk' hlock
  | operate i hworking => exact ha.move ⟨_, hworking⟩ j k hj hk hlock
  | leave i hdone => exact ha.move ⟨_, hdone⟩ j k hj hk hlock

/-- While a request is worked on, its lock keeps all others away. -/
theorem alone (h : Reaches jobs t s) : s.Alone jobs := by
  induction h with
  | refl =>
    rintro i j ⟨rest, hrest⟩
    cases hrest
  | tail _ hstep ih => exact hstep.alone ih

/-! ## One lock for all -/

/-- What requests come to one after the other. -/
def oneByOne (jobs : ι → Job α) : List ι → Tree → List (ι × α) × Tree
  | [], t => ([], t)
  | i :: rest, t =>
    let (result, t) := (jobs i).work.play t
    let (results, t) := oneByOne jobs rest t
    ((i, result) :: results, t)

omit [DecidableEq ι] in
theorem oneByOne_concat (order : List ι) (i : ι) (t : Tree) :
    oneByOne jobs (order ++ [i]) t =
      ((oneByOne jobs order t).1 ++ [(i, ((jobs i).work.play (oneByOne jobs order t).2).1)],
        ((jobs i).work.play (oneByOne jobs order t).2).2) := by
  induction order generalizing t with
  | nil => rfl
  | cons j rest ih =>
    show ((j, _) :: (oneByOne jobs (rest ++ [i]) _).1, (oneByOne jobs (rest ++ [i]) _).2) = _
    rw [ih]
    rfl

omit [DecidableEq ι] in
theorem map_fst_oneByOne (jobs : ι → Job α) (order : List ι) (t : Tree) :
    (oneByOne jobs order t).1.map Prod.fst = order := by
  induction order generalizing t with
  | nil => rfl
  | cons j rest ih =>
    show j :: (oneByOne jobs rest _).1.map Prod.fst = _
    rw [ih]

/-- The requests in the order were answered one after the other. At most one more is worked on, and
what is left of its work goes on as if it had begun after them. -/
structure Orderly (jobs : ι → Job α) (t : Tree) (s : Scene ι α) (order : List ι) : Prop where
  answers : ∀ i result, s.stage i = .finished result ↔ (i, result) ∈ (oneByOne jobs order t).1
  between : (∀ i, ¬ s.Busy i) → s.tree = (oneByOne jobs order t).2
  within : ∀ i rest, s.stage i = .working rest →
    rest.play s.tree = (jobs i).work.play (oneByOne jobs order t).2

omit [DecidableEq ι] in
theorem Orderly.not_mem {order : List ι} (h : Orderly jobs t s order) {i : ι}
    (hi : ∀ result, s.stage i ≠ .finished result) : i ∉ order := by
  intro hmem
  rw [← map_fst_oneByOne jobs order t] at hmem
  obtain ⟨⟨j, result⟩, hanswer, rfl⟩ := List.mem_map.mp hmem
  exact hi result ((h.answers j result).mpr hanswer)

/-- A step leaves the order, or adds the request that is answered. -/
theorem Step.orderly (hlock : ∀ i j, (jobs i).lock = (jobs j).lock) (ha : s.Alone jobs)
    (h : Step jobs s s') {order : List ι} (ho : Orderly jobs t s order) :
    Orderly jobs t s' order ∨ ∃ i ∉ order, Orderly jobs t s' (order ++ [i]) := by
  cases h with
  | enter i hwaiting hfree =>
    have hidle : ∀ j, ¬ s.Busy j := fun j hj => hfree j hj (hlock j i)
    refine .inl ⟨fun j result => ?_, fun hno => ?_, fun j rest hrest => ?_⟩
    · rw [Scene.finished_move_iff (by simp [hwaiting]) (by simp)]
      exact ho.answers j result
    · exact absurd ⟨_, Scene.stage_move_self⟩ (hno i)
    · by_cases hji : j = i
      · subst hji
        rw [Scene.stage_move_self] at hrest
        cases hrest
        exact congrArg _ (ho.between hidle)
      · rw [Scene.stage_move_of_ne hji] at hrest
        exact absurd ⟨rest, hrest⟩ (hidle j)
  | operate i hworking =>
    refine .inl ⟨fun j result => ?_, fun hno => ?_, fun j rest hrest => ?_⟩
    · rw [Scene.finished_move_iff (by simp [hworking]) (by simp)]
      exact ho.answers j result
    · exact absurd ⟨_, Scene.stage_move_self⟩ (hno i)
    · by_cases hji : j = i
      · subst hji
        rw [Scene.stage_move_self] at hrest
        cases hrest
        exact ho.within j _ hworking
      · rw [Scene.stage_move_of_ne hji] at hrest
        exact absurd (ha j i ⟨rest, hrest⟩ ⟨_, hworking⟩ (hlock j i)) hji
  | leave i hdone =>
    have hplay := ho.within i _ hdone
    refine .inr ⟨i, ho.not_mem (by simp [hdone]), fun j result => ?_, fun _ => ?_,
      fun j rest hrest => ?_⟩
    · rw [oneByOne_concat, ← hplay, List.mem_append, ← ho.answers, List.mem_singleton]
      by_cases hji : j = i
      · subst hji
        rw [Scene.stage_move_self, hdone]
        simp [Work.play, eq_comm]
      · rw [Scene.stage_move_of_ne hji]
        exact ⟨.inl, fun h => h.resolve_right fun heq => hji (congrArg Prod.fst heq)⟩
    · rw [oneByOne_concat, ← hplay]
      rfl
    · by_cases hji : j = i
      · subst hji
        rw [Scene.stage_move_self] at hrest
        cases hrest
      · rw [Scene.stage_move_of_ne hji] at hrest
        exact absurd (ha j i ⟨rest, hrest⟩ ⟨_, hdone⟩ (hlock j i)) hji

/-- Requests that share a lock are worked on one after the other. -/
theorem orderly_of_reaches (hlock : ∀ i j, (jobs i).lock = (jobs j).lock) (h : Reaches jobs t s) :
    ∃ order : List ι, order.Nodup ∧ Orderly jobs t s order := by
  induction h with
  | refl =>
    refine ⟨[], List.nodup_nil, fun i result => ?_, fun _ => rfl, fun i rest hrest => ?_⟩
    · exact iff_of_false (fun h => Stage.noConfusion rfl (heq_of_eq h)) List.not_mem_nil
    · cases hrest
  | tail hreach hstep ih =>
    obtain ⟨order, hnodup, ho⟩ := ih
    rcases hstep.orderly hlock (alone hreach) ho with ho' | ⟨i, hi, ho'⟩
    · exact ⟨order, hnodup, ho'⟩
    · refine ⟨order ++ [i], List.nodup_append.mpr ⟨hnodup, List.pairwise_singleton _ i, ?_⟩, ho'⟩
      rintro j hj k hk rfl
      exact hi (List.mem_singleton.mp hk ▸ hj)

/-- Once all requests that share a lock are answered, the answers and the tree are those of the
requests worked on one after the other in some order. -/
theorem answered_one_by_one (hlock : ∀ i j, (jobs i).lock = (jobs j).lock) (h : Reaches jobs t s)
    {results : ι → α} (hall : ∀ i, s.stage i = .finished (results i)) :
    ∃ order : List ι, order.Nodup ∧ (∀ i, i ∈ order) ∧
      oneByOne jobs order t = (order.map fun i => (i, results i), s.tree) := by
  obtain ⟨order, hnodup, ho⟩ := orderly_of_reaches hlock h
  have hidle : ∀ i, ¬ s.Busy i := by
    rintro i ⟨rest, hrest⟩
    rw [hall i] at hrest
    cases hrest
  -- every entry of the answers is the one that the request has got
  have hentry : ∀ entry ∈ (oneByOne jobs order t).1, entry = (entry.1, results entry.1) := by
    rintro ⟨i, result⟩ hmem
    have hstage := (ho.answers i result).mpr hmem
    rw [hall i] at hstage
    cases hstage
    rfl
  refine ⟨order, hnodup, fun i => ?_, Prod.ext ?_ (ho.between hidle).symm⟩
  · rw [← map_fst_oneByOne jobs order t]
    exact List.mem_map.mpr ⟨_, (ho.answers i _).mp (hall i), rfl⟩
  · calc (oneByOne jobs order t).1
        = (oneByOne jobs order t).1.map fun entry => (entry.1, results entry.1) :=
          (List.map_id _).symm.trans (List.map_congr_left hentry)
      _ = ((oneByOne jobs order t).1.map Prod.fst).map fun i => (i, results i) := by
          rw [List.map_map]
          rfl
      _ = order.map fun i => (i, results i) := by rw [map_fst_oneByOne]

end Checkup.Service
