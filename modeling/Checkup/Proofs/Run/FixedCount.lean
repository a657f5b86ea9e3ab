import Checkup.Proofs.Run.DryRun
import Checkup.Proofs.Run.Idempotence
import Checkup.Proofs.Run.Outstanding
import Checkup.Proofs.Run.Twice

/-!
# The number of repairs

A run that repairs tells how many repairs it made, and a check of the tree after it does not report
any more what was repaired. One repair can do for several findings: two scan roots that reach the same
file report the same finding of it. So the number of repairs is that of different findings that
vanish, and it is the number of all of them only if there are no such findings.

* `Again`: a plan for the tree after a run; `exists_again`: there is one.
* `Again.reported_iff`: what is reported again.
* `Again.length_succeeded`: as many repairs are made as different findings vanish.
* `fixedCount_of_vanished`: both for a run and the check after it.
* `fixedCount_below_vanished`: one repair for two findings.
-/

namespace Checkup

variable {t t' : Tree}

/-- The options of a run that only checks. -/
def Options.checking (o : Options) : Options := { o with fix := false, dryRun := false }

/-- The findings that say they can be repaired and that another run does not report any more. -/
def vanished (d d' : Diagnosis) : List Finding :=
  (promised d.findings).filter fun f => f ∉ d'.findings

/-- What there is to repair of a finding, by its rule, file and message. -/
def Diagnosis.repairOf (d : Diagnosis) (f : Finding) : String × Location × Label :=
  (f.rule, d.placeOf f, f.message)

/-- Lists have equally many different items if the same of them are equal. -/
theorem length_dedup_map {α β γ : Type} [DecidableEq β] [DecidableEq γ] {f : α → β} {g : α → γ}
    {l : List α} (h : ∀ x ∈ l, ∀ y ∈ l, f x = f y ↔ g x = g y) :
    (l.map f).dedup.length = (l.map g).dedup.length := by
  induction l with
  | nil => rfl
  | cons x rest ih =>
    have hrest := ih fun y hy z hz => h y (List.mem_cons_of_mem _ hy) z (List.mem_cons_of_mem _ hz)
    have hmem : f x ∈ rest.map f ↔ g x ∈ rest.map g := by
      rw [List.mem_map, List.mem_map]
      exact exists_congr fun y => and_congr_right fun hy =>
        h y (List.mem_cons_of_mem _ hy) x (List.mem_cons_self ..)
    rw [List.map_cons, List.map_cons]
    by_cases hx : f x ∈ rest.map f
    · rw [List.dedup_cons_of_mem hx, List.dedup_cons_of_mem (hmem.mp hx), hrest]
    · rw [List.dedup_cons_of_notMem hx, List.dedup_cons_of_notMem (fun hg => hx (hmem.mpr hg)),
        List.length_cons, List.length_cons, hrest]

/-- What is reported twice vanishes twice, for one repair. -/
theorem not_nodup_vanished {d d' : Diagnosis} {f : Finding} (h : [f, f].Sublist d.findings)
    (hfixable : f.fixable = true) (hgone : f ∉ d'.findings) :
    ¬ ((vanished d d').map d.repairOf).Nodup := by
  intro hnodup
  have hpromised : [f, f].filter (·.fixable) = [f, f] := by simp [hfixable]
  have hkept : [f, f].filter (fun f => f ∉ d'.findings) = [f, f] := by simp [hgone]
  have hvanished := (h.filter (·.fixable)).filter fun f => f ∉ d'.findings
  rw [hpromised, hkept] at hvanished
  have hpair := hnodup.sublist (hvanished.map d.repairOf)
  exact (List.nodup_cons.mp hpair).1 (List.mem_cons_self ..)

/-! ## Lock files -/

section

variable {c c' : Context} {f : Finding}

/-- A file in the root is there again. -/
theorem Context.Alike.fileExists_eq (hc : c.Alike c') (h : Tree.Grown ".gitignore" t t')
    {name : String} (hname : Tree.IsName name) (hnul : '\x00' ∉ name.toList)
    (hne : name ≠ ".gitignore") : c'.fileExists t' name = c.fileExists t name := by
  unfold Context.fileExists
  rw [Context.locate_eq h.new, Context.locate_eq h.old, hc.place_eq,
    Context.place_name hname hnul]
  dsimp only
  rw [Tree.exists?_grown h _ hname.ne_here hname.ne_up hne]

theorem isName_lockFile {name : String} (h : name ∈ Hygiene.SingleLockFile.lockFiles) :
    Tree.IsName name ∧ '\x00' ∉ name.toList ∧ name ≠ ".gitignore" := by
  unfold Hygiene.SingleLockFile.lockFiles at h
  simp only [List.mem_cons, List.not_mem_nil, or_false] at h
  rcases h with rfl | rfl | rfl | rfl | rfl <;>
    exact ⟨by constructor <;> decide, by decide, by decide⟩

/-- Too many lock files are reported again. -/
theorem lock_amended (hc : c.Alike c') (h : Tree.Grown ".gitignore" t t')
    (hf : f ∈ Hygiene.SingleLockFile.check c t) (hfixable : f.fixable = true) :
    f ∈ Hygiene.SingleLockFile.check c' t' := by
  obtain ⟨first, second, others, hmany⟩ := (Hygiene.mem_lockFile hf).2.mp hfixable
  have hsame : Hygiene.SingleLockFile.lockFiles.filter (c'.fileExists t') =
      Hygiene.SingleLockFile.lockFiles.filter (c.fileExists t) := by
    refine List.filter_congr fun name hname => ?_
    obtain ⟨hname, hnul, hne⟩ := isName_lockFile hname
    exact hc.fileExists_eq h hname hnul hne
  unfold Hygiene.SingleLockFile.check at hf ⊢
  rw [hc.isWorkspace, hsame]
  rw [hmany] at hf ⊢
  exact hf

end

namespace Run

variable {root : Location} {p p' : Plan} {task : Task} {l : Location} {a : Amendment} {f : Finding}

/-- A plan for the tree after a run, where nothing is left to do that can be done. -/
structure Again (t : Tree) (root : Location) (p : Plan) (t' : Tree) (p' : Plan) : Prop where
  first : Planned t root p
  second : Planned t' root p'
  alike : p.Alike p'
  whole : ∀ r ∈ p.roots, r.isWorkspace = false → ∃ r' ∈ p'.roots, ScanRoot.Alike r r'
  grown : Tree.Grown ".gitignore" t t'
  settled : ∀ task ∈ tasks p' t', ∀ l a, task.IsEdit p'.ignoreRules l a → Settled t' l a

/-- The tree after a run has such a plan. -/
theorem exists_again (ht : t.Ordinary) {current : List String} {path : String} {o : Options}
    (hplan : plan none t current path o = .ok p)
    (htree : t' = (performAll p.ignoreRules (tasks p t) t).2) :
    ∃ root p', plan none t' current path o = .ok p' ∧ Again t root p t' p' := by
  obtain ⟨root, -, hp⟩ := planned_of_plan ht hplan
  obtain ⟨hamended, hsettled⟩ := tasks_amended hp
  rw [← htree] at hamended hsettled
  have hE := aimed_target hp (findings (outcomes p t))
  have hgrown := hamended.grown hE ht
  obtain ⟨p', hplan', halike⟩ := plan_amended hE ht hamended hplan
  obtain ⟨root', -, hp'⟩ := planned_of_plan hgrown.new hplan'
  obtain rfl : root' = root := by
    rw [← hp'.steps, halike.project.root, hp.steps]
  obtain ⟨-, _, -, -, -, hroots, -⟩ := plan_eq_ok.mp hplan
  obtain ⟨-, _, -, -, -, hroots', -⟩ := plan_eq_ok.mp hplan'
  refine ⟨root', p', hplan', hp, hp', halike, fun r hr hwhole => ?_, hgrown,
    fun task htask l a hedit => ?_⟩
  · exact ScanRoot.whole_again halike.project hroots hroots' hr hwhole
  · obtain ⟨task', htask', hedit'⟩ := task_again hp halike hamended htask hedit
    exact hsettled task' htask' l a hedit'

namespace Again

theorem legible (h : Again t root p t' p') (hlegible : p.project.Legible) : p'.project.Legible :=
  fun w hw => hlegible w (h.alike.project.workspaces w hw)

/-- What is found again in the project as a whole is reported again. -/
theorem mem_findings (h : Again t root p t' p') {r : ScanRoot} (hr : r ∈ p.roots)
    (hwhole : r.isWorkspace = false) {rule : Rule} (hrule : rule ∈ p.rules)
    (happlies : rule.info.applies r.kind = true)
    (hcheck : ∀ c', (r.context p.ignoreRules).Alike c' →
      ∃ found, rule.check c' t' = .ok found ∧ f ∈ found) :
    r.report f ∈ findings (outcomes p' t') := by
  obtain ⟨r', hr', halike⟩ := h.whole r hr hwhole
  obtain ⟨found, hfound, hf⟩ := hcheck _ (halike.context p.ignoreRules)
  have hreport : r'.report f = r.report f := by
    unfold ScanRoot.report ScanRoot.pathInProject
    rw [halike.relativePath]
  rw [← h.alike.ignoreRules_eq] at hfound
  exact mem_findings_iff.mpr ⟨r', hr', rule, h.alike.rules ▸ hrule, halike.kind ▸ happlies, found,
    hfound, f, hf, hreport⟩

/-- A missing file of ignored paths that cannot be made is reported again. -/
theorem absent_again (h : Again t root p t' p') (htask : task ∈ tasks p t)
    (hO : Outstanding t root p task l a) (hid : a.ruleId = Hygiene.GitIgnore.info.id)
    (hw : ¬ t.Writable l) : task.reported ∈ findings (outcomes p' t') := by
  obtain ⟨hr, hrule, happlies, -, -, found, hcheck, hfound⟩ := mem_tasks_iff.mp htask
  obtain ⟨r, rule, f⟩ := task
  obtain ⟨file, hrepairs, hplace⟩ := hO.edit
  dsimp only at hr hrule happlies hcheck hfound hrepairs hplace
  cases hrepairs with
  | strict => exact absurd hid (by decide)
  | engine => exact absurd hid (by decide)
  | protocol =>
    exact absurd hid (by decide : Monorepo.WorkspaceProtocol.info.id ≠ Hygiene.GitIgnore.info.id)
  | directive => exact absurd hid (by decide)
  | ignore =>
    cases hcheck
    have hplain := Context.plain_place hplace
    have hw' : ¬ t'.Writable l := fun hw' => hw ((h.grown.writable_iff l).mp hw')
    obtain ⟨hworkspace, hfinding⟩ := mem_ignore_iff.mp hfound
    rw [Context.readNonempty?_of_place h.grown.old hplace,
      Tree.content_of_not_writable h.grown.old hplain hw] at hfinding
    obtain ⟨-, rfl⟩ : _ ∧ f = absent := by
      rcases hfinding with hfinding | ⟨text, htext, -⟩
      · exact hfinding
      · cases htext
    refine h.mem_findings hr hworkspace hrule happlies fun c' hc => ⟨_, rfl, ?_⟩
    refine mem_ignore_iff.mpr ⟨hc.isWorkspace.trans hworkspace, .inl ⟨?_, rfl⟩⟩
    rw [Context.readNonempty?_of_place h.grown.new ((hc.place_eq _).trans hplace),
      Tree.content_of_not_writable h.grown.new hplain hw']
    rfl

/-- What is to be repaired is reported again if and only if there was nothing to be done about it. -/
theorem reported_iff_settled (h : Again t root p t' p') (hlegible : p.project.Legible)
    (htask : task ∈ tasks p t) (hO : Outstanding t root p task l a) :
    task.reported ∈ findings (outcomes p' t') ↔ Settled t l a := by
  constructor
  · intro hagain
    have hfixable : task.reported.fixable = true := (mem_tasks_iff.mp htask).2.2.2.2.1
    have hlocks : task.reported.isOnLocks = false := by
      unfold Finding.isOnLocks
      rw [← hO.rule]
      cases a <;> rfl
    -- the report is that of a task of the second run, whose edit is settled
    have hmem : task.reported ∈ (promised (findings (outcomes p' t'))).filter (!·.isOnLocks) :=
      List.mem_filter.mpr ⟨List.mem_filter.mpr ⟨hagain, hfixable⟩, by rw [hlocks]; rfl⟩
    rw [promised_tasks h.second.rules] at hmem
    obtain ⟨task', htask', hreported⟩ := List.mem_map.mp hmem
    obtain ⟨l', a', hO'⟩ := h.second.exists_outstanding (h.legible hlegible) htask'
    have hsettled := h.settled task' htask' l' a' hO'.edit
    obtain ⟨-, hw⟩ := hO'.complaint.of_settled h.grown.new
      (h.second.aimed_edits.plain ⟨task', htask', hO'⟩) hsettled
    have hplace : l' = l := by rw [hO'.place, hO.place, hreported]
    rw [hplace, h.grown.writable_iff] at hw
    exact fun _ _ hwritable => hw hwritable
  · intro hsettled
    obtain ⟨hid, hw⟩ := hO.complaint.of_settled h.grown.old
      (h.first.aimed_edits.plain ⟨task, htask, hO⟩) hsettled
    exact h.absent_again htask hO hid hw

/-- A finding about too many lock files is reported again. -/
theorem lock_again (h : Again t root p t' p') (hf : f ∈ findings (outcomes p t))
    (hfixable : f.fixable = true) (hlocks : f.isOnLocks = true) : f ∈ findings (outcomes p' t') := by
  obtain ⟨r, hr, rule, hrule, happlies, found, hcheck, g, hg, rfl⟩ := mem_findings_iff.mp hf
  have hbuiltIn := h.first.rules rule hrule
  have hid : g.rule = "node/single-lock-file" := of_decide_eq_true hlocks
  rcases Registry.finds_builtIn hbuiltIn with rfl | hfinds
  · cases hcheck
    have hworkspace : r.isWorkspace = false := by
      cases hwhole : r.isWorkspace with
      | false => rfl
      | true =>
        have hnone : Hygiene.SingleLockFile.check (r.context p.ignoreRules) t = [] := by
          unfold Hygiene.SingleLockFile.check
          exact if_pos hwhole
        rw [hnone] at hg
        cases hg
    exact h.mem_findings hr hworkspace hrule happlies fun c' hc =>
      ⟨_, rfl, lock_amended hc h.grown hg hfixable⟩
  · -- no other rule finds this
    have hg' := hfinds _ t found hcheck g hg
    have hcan : rule.canFix = true := hg'.fixable.symm.trans hfixable
    exact absurd (hg'.rule.symm.trans hid) (not_isOnLocks_of_canFix hbuiltIn hcan)

variable {d d' : Diagnosis}

/-- Of the findings that say they can be repaired, those on lock files are reported again, and those
on a file of ignored paths that cannot be written. -/
theorem reported_iff (h : Again t root p t' p') (hlegible : p.project.Legible)
    (hproject : d.project = p.project) (hf : f ∈ findings (outcomes p t))
    (hfixable : f.fixable = true) : f ∈ findings (outcomes p' t') ↔ f.isOnLocks = true ∨
      (f.rule = Hygiene.GitIgnore.info.id ∧ ¬ t.Writable (d.placeOf f)) := by
  cases hlocks : f.isOnLocks with
  | true => exact iff_of_true (h.lock_again hf hfixable hlocks) (.inl rfl)
  | false =>
    rw [or_iff_right Bool.false_ne_true]
    have hmem : f ∈ (promised (findings (outcomes p t))).filter (!·.isOnLocks) :=
      List.mem_filter.mpr ⟨List.mem_filter.mpr ⟨hf, hfixable⟩, by rw [hlocks]; rfl⟩
    rw [promised_tasks h.first.rules] at hmem
    obtain ⟨task, htask, rfl⟩ := List.mem_map.mp hmem
    obtain ⟨l, a, hO⟩ := h.first.exists_outstanding hlegible htask
    rw [h.reported_iff_settled hlegible htask hO, ← hO.rule, h.first.placeOf_eq hproject, ← hO.place]
    constructor
    · exact hO.complaint.of_settled h.grown.old (h.first.aimed_edits.plain ⟨task, htask, hO⟩)
    · exact fun hw _ _ hwritable => hw.2 hwritable

/-! ## Counting -/

/-- The findings that vanish are those of tasks. -/
theorem vanished_eq (h : Again t root p t' p') (hd : d.findings = findings (outcomes p t))
    (hd' : d'.findings = findings (outcomes p' t')) : vanished d d' =
      ((tasks p t).filter fun task => task.reported ∉ d'.findings).map Task.reported := by
  have htasks : ((tasks p t).filter fun task => task.reported ∉ d'.findings).map Task.reported =
      ((tasks p t).map Task.reported).filter fun f => f ∉ d'.findings := by
    rw [List.filter_map]
    rfl
  rw [htasks, ← promised_tasks h.first.rules, ← hd, List.filter_filter]
  refine List.filter_congr fun f hf => ?_
  obtain ⟨hmem, hfixable⟩ := List.mem_filter.mp hf
  cases hlocks : f.isOnLocks with
  | false => rw [Bool.not_false, Bool.and_true]
  | true =>
    rw [hd] at hmem
    have hagain := h.lock_again hmem hfixable hlocks
    rw [← hd'] at hagain
    rw [Bool.not_true, Bool.and_false, decide_eq_false_iff_not, not_not]
    exact hagain

/-- As many repairs are made as there are different ones among the findings that vanish. -/
theorem length_succeeded (h : Again t root p t' p') (hlegible : p.project.Legible)
    (hproject : d.project = p.project) (hd : d.findings = findings (outcomes p t))
    (hd' : d'.findings = findings (outcomes p' t')) :
    ((performAll p.ignoreRules (tasks p t) t).1.filter Attempt.succeeded).length =
      ((vanished d d').map d.repairOf).dedup.length := by
  have hexists : ∀ task, ∃ e : Location × Amendment,
      task ∈ tasks p t → Outstanding t root p task e.1 e.2 := by
    intro task
    by_cases htask : task ∈ tasks p t
    · obtain ⟨l, a, hO⟩ := h.first.exists_outstanding hlegible htask
      exact ⟨(l, a), fun _ => hO⟩
    · exact ⟨([], .direct), fun hmem => absurd hmem htask⟩
  choose edit hedit using hexists
  -- the edits that are not settled are those of the findings that vanish
  have hvanish : ∀ task ∈ tasks p t,
      task.reported ∉ d'.findings ↔ ¬ Settled t (edit task).1 (edit task).2 := by
    intro task htask
    rw [hd', h.reported_iff_settled hlegible htask (hedit task htask)]
  have hpending : pending edit (tasks p t) t =
      (((tasks p t).filter fun task => task.reported ∉ d'.findings).map edit).toFinset := by
    ext e
    rw [Finset.mem_coe, List.mem_toFinset, List.mem_map]
    constructor
    · rintro ⟨⟨task, htask, rfl⟩, hs⟩
      exact ⟨task, List.mem_filter.mpr ⟨htask, decide_eq_true ((hvanish task htask).mpr hs)⟩, rfl⟩
    · rintro ⟨task, htask, rfl⟩
      obtain ⟨htask, hgone⟩ := List.mem_filter.mp htask
      exact ⟨⟨task, htask, rfl⟩, (hvanish task htask).mp (of_decide_eq_true hgone)⟩
  rw [h.first.length_succeeded hedit, hpending, Set.ncard_coe_finset, List.card_toFinset,
    h.vanished_eq hd hd', List.map_map]
  refine length_dedup_map fun task htask task' htask' => ?_
  have hO := hedit task (List.mem_filter.mp htask).1
  have hO' := hedit task' (List.mem_filter.mp htask').1
  refine (hO.same_edit_iff hO').trans ?_
  unfold Function.comp Diagnosis.repairOf
  rw [h.first.placeOf_eq hproject, h.first.placeOf_eq hproject, Prod.mk.injEq, Prod.mk.injEq]

end Again

variable {d : Diagnosis} {current : List String} {path : String} {o : Options}

/-- A run that repairs, with a check of the tree after it. -/
theorem exists_check (ht : t.Ordinary) (h : run none t current path o.repairing = (.ok d, t'))
    (hlegible : d.project.Legible) : ∃ d', run none t' current path o.checking = (.ok d', t') ∧
      (∀ f ∈ promised d.findings, f ∈ d'.findings ↔ f.isOnLocks = true ∨
        (f.rule = Hygiene.GitIgnore.info.id ∧ ¬ t.Writable (d.placeOf f))) ∧
      d.fixedCount = some (((vanished d d').map d.repairOf).dedup.length : Int) := by
  obtain ⟨p, hplan, hd, htree⟩ := run_eq_ok.mp h
  have hproject : d.project = p.project := by rw [hd]; rfl
  have hfindings : d.findings = findings (outcomes p t) := by rw [hd]; rfl
  rw [hproject] at hlegible
  obtain ⟨root, p', hplan', hagain⟩ := exists_again ht hplan htree
  obtain ⟨d', hd'⟩ : ∃ d', d' = (Visit.mk p' (outcomes p' t') []).diagnosis o.checking := ⟨_, rfl⟩
  have hfindings' : d'.findings = findings (outcomes p' t') := by rw [hd']; rfl
  refine ⟨d', run_eq_ok.mpr ⟨p', hplan', hd', rfl⟩, fun f hf => ?_, ?_⟩
  · obtain ⟨hmem, hfixable⟩ := List.mem_filter.mp hf
    rw [hfindings] at hmem
    rw [hfindings', hagain.reported_iff hlegible hproject hmem hfixable]
  · rw [← hagain.length_succeeded hlegible hproject hfindings hfindings', hd]
    rfl

/-- In a tree without links, of the findings that say they can be repaired a check of the tree after
a run does not report those any more that are neither on lock files nor on a file of ignored paths
that cannot be written. The run makes as many repairs as there are different ones among these
findings, and one for each of them if and only if no two have the same rule, file and message. -/
theorem fixedCount_of_vanished (ht : t.Ordinary)
    (h : run none t current path o.repairing = (.ok d, t')) (hlegible : d.project.Legible) :
    ∃ d', run none t' current path o.checking = (.ok d', t') ∧
      (∀ f ∈ promised d.findings, f ∈ d'.findings ↔ f.isOnLocks = true ∨
        (f.rule = Hygiene.GitIgnore.info.id ∧ ¬ t.Writable (d.placeOf f))) ∧
      d.fixedCount = some (((vanished d d').map d.repairOf).dedup.length : Int) ∧
      (d.fixedCount = some ((vanished d d').length : Int) ↔
        ((vanished d d').map d.repairOf).Nodup) := by
  obtain ⟨d', hcheck, hagain, hfixed⟩ := exists_check ht h hlegible
  refine ⟨d', hcheck, hagain, hfixed, ?_⟩
  rw [hfixed, Option.some_inj, Nat.cast_inj, ← List.length_map d.repairOf]
  exact Multiset.dedup_card_eq_card_iff_nodup (m := Multiset.ofList ((vanished d d').map d.repairOf))

/-- The run makes the file of ignored paths and states the engine. -/
theorem fixedCount_of_vanished_bareTree : bareTree.Ordinary ∧ ∃ d t',
    run none bareTree [] "/r" bareOptions.repairing = (.ok d, t') ∧ d.project.Legible ∧
      d.fixedCount = some 2 ∧ ∃ d', run none t' [] "/r" bareOptions.checking = (.ok d', t') ∧
      (∀ f ∈ promised d.findings, f ∈ d'.findings ↔ f.isOnLocks = true ∨
        (f.rule = Hygiene.GitIgnore.info.id ∧ ¬ bareTree.Writable (d.placeOf f))) ∧
      d.fixedCount = some (((vanished d d').map d.repairOf).dedup.length : Int) ∧
      (d.fixedCount = some ((vanished d d').length : Int) ↔
        ((vanished d d').map d.repairOf).Nodup) := by
  obtain ⟨d, t', hrun, hproject, hfixed⟩ : ∃ d t',
      run none bareTree [] "/r" bareOptions.repairing = (.ok d, t') ∧ d.project = bareProject ∧
        d.fixedCount = some 2 :=
    ⟨_, _, run_eq_ok.mpr ⟨barePlan, plan_bareTree, rfl, rfl⟩, rfl, by decide +kernel⟩
  have hlegible : d.project.Legible := by
    rw [hproject]
    exact fun _ hw => by cases hw
  exact ⟨ordinary_bareTree, d, t', hrun, hlegible, hfixed,
    fixedCount_of_vanished ordinary_bareTree hrun hlegible⟩

/-! ## A file in two applications -/

/-- Two applications, one of which lies in the other with a file that lacks the client directive. -/
def sharedTree : Tree :=
  ⟨layoutTree.entries ++ [(["r", "a", "src", "view.tsx"], .file "useState".toUTF8)]⟩

theorem ordinary_sharedTree : sharedTree.Ordinary := Tree.ordinary_of_entries (by decide)

/-- The plan of a run in both applications. -/
def sharedPlan : Plan := layoutPlan [outerWorkspace, innerWorkspace]

theorem plan_sharedTree : plan none sharedTree [] "/r" (layoutOptions "") = .ok sharedPlan :=
  plan_layoutProject (by decide +kernel) (by decide +kernel) (by decide +kernel) (by decide +kernel)

theorem mem_namesIn_sharedTree {steps : List String} {l : Location} {name : String}
    (h : sharedTree.access steps = .ok (l, .folder)) (hname : sharedTree.node? (l ++ [name]) ≠ none) :
    name ∈ Context.namesIn sharedTree steps := by
  unfold Context.namesIn
  rw [h]
  exact Tree.mem_children_iff.mpr hname

/-- Both applications have the file among their own. -/
theorem mem_findFiles_sharedTree :
    "src/view.tsx" ∈ ((layoutRoot outerWorkspace).context []).findFiles sharedTree .markupFiles ∧
      "view.tsx" ∈ ((layoutRoot innerWorkspace).context []).findFiles sharedTree .markupFiles := by
  have hfolder : "src" ∈ Context.namesIn sharedTree ["r", "a"] :=
    mem_namesIn_sharedTree (l := ["r", "a"]) (by decide) (by decide)
  have hfile : "view.tsx" ∈ Context.namesIn sharedTree ["r", "a", "src"] :=
    mem_namesIn_sharedTree (l := ["r", "a", "src"]) (by decide) (by decide)
  constructor
  · refine Context.mem_walk_of_found hfolder ?_
    rw [Context.found_folder (by decide) (by decide) (by decide)]
    exact Context.mem_walk_of_found hfile (by decide)
  · exact Context.mem_walk_of_found hfile (by decide)

/-- What a run finds wrong with the file at a path. -/
def sharedFinding (path : String) : Finding :=
  (Application.ClientDirective.info.finding path
    ("Uses " ++ "useState" ++ " but missing \"use client\" directive")).asFixable

theorem mem_sharedFinding {w : Workspace} {path : String}
    (hpath : path ∈ ((layoutRoot w).context []).findFiles sharedTree .markupFiles)
    (hlayout : Application.ClientDirective.isServerLayout path = false)
    (hread : ((layoutRoot w).context []).readNonempty? sharedTree path = some "useState")
    (hreport : (layoutRoot w).report (sharedFinding path) = sharedFinding "a/src/view.tsx") :
    sharedFinding "a/src/view.tsx" ∈ foundIn sharedPlan sharedTree (layoutRoot w) := by
  refine List.mem_flatMap.mpr ⟨Application.ClientDirective.rule, List.mem_filter.mpr
    ⟨List.mem_of_getElem? (i := 3) rfl, rfl⟩, ?_⟩
  refine mem_reported_iff.mpr ⟨_, rfl, sharedFinding path, ?_, hreport⟩
  exact mem_directive_iff.mpr ⟨path, hpath, hlayout, "useState", hread, by decide, "useState",
    by decide, rfl⟩

/-- A run in both applications reports the file twice. -/
theorem shared_twice : [sharedFinding "a/src/view.tsx", sharedFinding "a/src/view.tsx"].Sublist
    (findings (outcomes sharedPlan sharedTree)) := by
  obtain ⟨houter, hinner⟩ := mem_findFiles_sharedTree
  have houter := mem_sharedFinding houter (by decide) (by decide +kernel) (by decide +kernel)
  have hinner := mem_sharedFinding hinner (by decide) (by decide +kernel) (by decide +kernel)
  rw [findings_eq]
  refine List.Sublist.trans ?_ (List.sublist_append_right _ _)
  refine List.Sublist.append (List.singleton_sublist.mpr houter) ?_
  exact List.Sublist.append (List.singleton_sublist.mpr hinner) (List.nil_sublist _)

/-- One repair does for two findings. -/
theorem fixedCount_below_vanished : sharedTree.Ordinary ∧ ∃ d t' d',
    run none sharedTree [] "/r" (layoutOptions "").repairing = (.ok d, t') ∧ d.project.Legible ∧
      run none t' [] "/r" (layoutOptions "").checking = (.ok d', t') ∧
      d.fixedCount ≠ some ((vanished d d').length : Int) := by
  obtain ⟨d, t', hrun, hproject, hd⟩ := exists_run (plan_repairing.trans plan_sharedTree)
  have hlegible : d.project.Legible := by
    rw [hproject]
    have hall : ∀ w ∈ [outerWorkspace, innerWorkspace], IsWord w.name := by decide
    exact hall
  obtain ⟨d', hcheck, hagain, hfixed⟩ := exists_check ordinary_sharedTree hrun hlegible
  refine ⟨ordinary_sharedTree, d, t', d', hrun, hlegible, hcheck, fun heq => ?_⟩
  have htwice := shared_twice
  rw [← hd] at htwice
  have hgone : sharedFinding "a/src/view.tsx" ∉ d'.findings := by
    intro hmem
    have hpromised : sharedFinding "a/src/view.tsx" ∈ promised d.findings :=
      List.mem_filter.mpr ⟨htwice.subset (List.mem_cons_self ..), rfl⟩
    rcases (hagain _ hpromised).mp hmem with hlocks | ⟨hrule, -⟩
    · exact absurd hlocks (by decide)
    · exact absurd hrule (by decide)
  rw [hfixed, Option.some_inj, Nat.cast_inj, ← List.length_map d.repairOf] at heq
  have hnodup := Multiset.dedup_card_eq_card_iff_nodup
    (m := Multiset.ofList ((vanished d d').map d.repairOf))
  exact not_nodup_vanished htwice rfl hgone (hnodup.mp heq)

end Run

end Checkup
