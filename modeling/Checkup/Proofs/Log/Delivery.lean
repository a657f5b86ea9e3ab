import Checkup.Log.State
import Mathlib.Data.List.Basic

/-!
# Which records arrive where

Whatever happened before, the latest set-up alone says where records go. That holds for every part of the
program whose logger hangs below the shared one. A name that begins with a single dot does not get
there: the full name has two dots in a row, of which the second one is found and the first one passed
over.

* `State.hears_of_undotted`, `State.not_hears_of_dot`: which loggers hang below the shared one.
* `State.Follows`: the shared logger is as a set-up says. Records leave it so.
* `written_as_set_up`: what is written of a record, and where.
-/

namespace Checkup.Log

/-! ## Loggers above a logger -/

/-- The search for loggers leaves a text that does not end in a dot, seen from what stands before it,
without having passed over anything. The names of those that it comes by before are longer. -/
theorem above_append {loggers : List (List Char)} {tail text : List Char} {passes : Bool}
    (hlast : text.getLast? ≠ some '.') (hpasses : text = [] → passes = false) :
    ∃ found, above loggers passes (text ++ tail) = found ++ above loggers false tail ∧
      ∀ name ∈ found, tail <:+ name := by
  induction text generalizing passes with
  | nil => exact ⟨[], by rw [hpasses rfl]; rfl, fun _ h => absurd h List.not_mem_nil⟩
  | cons c rest ih =>
    by_cases hrest : rest = []
    · subst hrest
      have hc : c ≠ '.' := fun h => hlast (h ▸ rfl)
      exact ⟨[], by rw [List.singleton_append, above, if_neg fun h => hc h.1]; rfl,
        fun _ h => absurd h List.not_mem_nil⟩
    · rw [List.getLast?_cons_of_ne_nil hrest] at hlast
      have hstep : ∀ passes, ∃ found,
          above loggers passes (rest ++ tail) = found ++ above loggers false tail ∧
            ∀ name ∈ found, tail <:+ name := fun passes => ih hlast fun h => absurd h hrest
      rw [List.cons_append, above]
      split
      · split
        · obtain ⟨found, heq, hfound⟩ := hstep false
          refine ⟨(rest ++ tail) :: found, by rw [heq]; rfl, ?_⟩
          exact List.forall_mem_cons.mpr ⟨List.suffix_append rest tail, hfound⟩
        · exact hstep true
      · exact hstep false

theorem above_of_no_dot {loggers : List (List Char)} {passes : Bool} {text : List Char}
    (h : '.' ∉ text) : above loggers passes text = [] := by
  induction text generalizing passes with
  | nil => rfl
  | cons c rest ih =>
    rw [List.mem_cons, not_or] at h
    obtain ⟨hc, hrest⟩ := h
    rw [above, if_neg fun h => hc h.1.symm]
    exact ih hrest

theorem backwards_append (a b : String) : backwards (a ++ b) = backwards b ++ backwards a := by
  simp [backwards]

theorem backwards_fullName {source : String} (h : source ≠ "") :
    backwards (fullName source) = backwards source ++ '.' :: backwards rootLogger := by
  unfold fullName
  rw [if_neg h, backwards_append, backwards_append]
  rfl

theorem getLast?_backwards (name : String) : (backwards name).getLast? = name.toList.head? :=
  List.getLast?_reverse

theorem backwards_eq_nil {name : String} : backwards name = [] ↔ name = "" := by
  simp [backwards]

namespace State

variable {s : State} {setup : Setup} {stream : Nat} {r : Record}

theorem root_mem_loggers : backwards rootLogger ∈ s.loggers := List.mem_cons_self ..

/-- No logger has the shared name with nothing but a dot behind it. -/
theorem dot_not_mem_loggers : '.' :: backwards rootLogger ∉ s.loggers := by
  intro h
  obtain ⟨name, hname, heq⟩ := List.mem_map.mp h
  have hlength := congrArg List.length heq
  rcases List.mem_cons.mp hname with rfl | hname
  · simp at hlength
  · obtain ⟨source, -, rfl⟩ := List.mem_map.mp hname
    by_cases hsource : source = ""
    · subst hsource
      exact absurd hlength (by decide)
    · rw [backwards_fullName hsource] at heq
      have hnil : backwards source = [] := List.append_left_eq_self.mp heq
      exact hsource (backwards_eq_nil.mp hnil)

/-- The logger of a part of the program whose name does not begin with a dot hangs below the shared
one. -/
theorem hears_of_undotted {source : String} (h : source.toList.head? ≠ some '.') :
    s.hears source = true := by
  unfold hears
  rw [decide_eq_true_iff]
  by_cases hsource : source = ""
  · subst hsource
    exact List.mem_cons_self ..
  · rw [← getLast?_backwards] at h
    obtain ⟨found, heq, -⟩ :=
      @above_append s.loggers ('.' :: backwards rootLogger) _ false h fun _ => rfl
    rw [backwards_fullName hsource, heq, above, if_pos ⟨rfl, rfl⟩, if_pos root_mem_loggers]
    simp

/-- The logger of a part of the program whose name begins with a single dot does not. -/
theorem not_hears_of_dot {rest : String} (h : rest.toList.head? ≠ some '.') :
    s.hears ("." ++ rest) = false := by
  have hsource : "." ++ rest ≠ "" := fun h => by simpa using congrArg String.length h
  have hname : backwards (fullName ("." ++ rest)) =
      backwards rest ++ '.' :: '.' :: backwards rootLogger := by
    rw [backwards_fullName hsource, backwards_append]
    simp [backwards]
  rw [← getLast?_backwards] at h
  obtain ⟨found, heq, hfound⟩ :=
    @above_append s.loggers ('.' :: '.' :: backwards rootLogger) _ false h fun _ => rfl
  -- what is left of the name is the shared one with two dots; the first one of them is passed over
  have htail : above s.loggers false ('.' :: '.' :: backwards rootLogger) = [] := by
    rw [above, if_pos ⟨rfl, rfl⟩, if_neg dot_not_mem_loggers, above, if_neg fun h => by cases h.2]
    exact above_of_no_dot (by decide)
  have hshort : ¬ '.' :: '.' :: backwards rootLogger <:+ backwards rootLogger := by decide
  unfold hears
  rw [decide_eq_false_iff_not, hname, heq, htail, List.append_nil]
  intro hmem
  rcases List.mem_cons.mp hmem with hroot | hroot
  · exact hshort ⟨backwards rest, hroot.symm⟩
  · exact hshort (hfound _ hroot)

/-! ## Set-ups -/

/-- The shared logger is as a set-up with a stream says. -/
structure Follows (s : State) (setup : Setup) (stream : Nat) : Prop where
  level : s.level = setup.level
  handlers : s.handlers = setup.handlers stream
  keeps : s.propagates = false

theorem follows_setUp : (s.after (.setUp setup)).Follows setup s.streams := ⟨rfl, rfl, rfl⟩

theorem Follows.log (h : s.Follows setup stream) (call : Call) :
    (s.after (.log call)).Follows setup stream := ⟨h.level, h.handlers, h.keeps⟩

theorem Follows.logs (h : s.Follows setup stream) (calls : List Call) :
    ((calls.map Event.log).foldl after s).Follows setup stream := by
  induction calls generalizing s with
  | nil => exact h
  | cons call rest ih => exact ih (h.log call)

/-- Set-ups do what they say in every state, and records leave it so. -/
theorem follows_latest (before : List Event) (since : List Call) :
    ((before ++ Event.setUp setup :: since.map Event.log).foldl after s).Follows setup
      (before.foldl after s).streams := by
  rw [List.foldl_append, List.foldl_cons]
  exact follows_setUp.logs since

end State

/-! ## What is written -/

theorem linesTo_append (sink : Sink) (a b : List Write) :
    linesTo sink (a ++ b) = linesTo sink a ++ linesTo sink b := by
  simp [linesTo]

theorem lines_cons (layout : Layout) (least : Level) (r : Record) (rest : List Record) :
    ((r :: rest).filter (·.reaches least)).map layout.line =
      (if least.rank ≤ r.level.rank then [layout.line r] else []) ++
        (rest.filter (·.reaches least)).map layout.line := by
  rw [List.filter_cons]
  unfold Record.reaches
  by_cases h : least.rank ≤ r.level.rank
  · rw [if_pos (decide_eq_true h), if_pos h]
    rfl
  · rw [if_neg (by simpa using h), if_neg h]
    rfl

/-- The lines for a sink come from the handlers that write to it and take the record. -/
theorem linesTo_handlers (sink : Sink) (handlers : List Handler) (r : Record) :
    linesTo sink (handlers.filterMap (·.write? r)) =
      (handlers.filter fun h => h.sink? = some sink && r.reaches h.level).map (·.layout.line r) := by
  induction handlers with
  | nil => rfl
  | cons h rest ih =>
    rw [List.filterMap_cons, List.filter_cons]
    unfold Handler.write? at ih ⊢
    by_cases hlevel : r.reaches h.level = true
    · rw [if_pos hlevel, hlevel, Bool.and_true]
      cases hsink : h.sink? with
      | none => exact ih
      | some place =>
        unfold linesTo at ih ⊢
        rw [Option.map_some, List.filter_cons]
        by_cases hplace : place = sink
        · rw [if_pos (by simpa using hplace), if_pos (by simpa using hplace), List.map_cons, ih]
          rfl
        · rw [if_neg (by simpa using hplace), if_neg (by simpa using hplace)]
          exact ih
    · rw [if_neg hlevel, if_neg fun h => hlevel (Bool.and_eq_true_iff.mp h).2]
      exact ih

namespace Setup

variable {s : Setup} {r : Record} {stream : Nat}

theorem level_ne_notSet : s.level ≠ .notSet := by
  unfold level consoleLevel
  split
  · decide
  · split <;> decide

/-- The logger looks at all that the handlers take. -/
theorem level_le {h : Handler} (hh : h ∈ s.handlers stream) : s.level.rank ≤ h.level.rank := by
  have hconsole : s.level.rank ≤ s.consoleLevel.rank := by
    unfold level consoleLevel
    split <;> split <;> decide
  rcases List.mem_cons.mp hh with rfl | hh
  · exact hconsole
  · obtain ⟨path, hpath, rfl⟩ := List.mem_map.mp hh
    have hfile : s.file?.isSome = true := by
      cases hfile : s.file? with
      | some file => rfl
      | none =>
        rw [path?, hfile] at hpath
        cases hpath
    rw [level, if_pos hfile]
    exact Int.le_refl _

theorem lines_to_stream : linesTo (.stream stream) ((s.handlers stream).filterMap (·.write? r)) =
    if s.consoleLevel.rank ≤ r.level.rank then [s.consoleLayout.line r] else [] := by
  rw [linesTo_handlers]
  unfold handlers Record.reaches
  cases s.path? <;> simp [List.filter_cons] <;> split <;> rfl

theorem lines_to_file (path : String) :
    linesTo (.file path) ((s.handlers stream).filterMap (·.write? r)) =
      if s.path? = some path ∧ Level.debug.rank ≤ r.level.rank then [Layout.trail.line r] else [] := by
  rw [linesTo_handlers]
  unfold handlers Record.reaches
  cases s.path? <;> simp [List.filter_cons, fileLevel]
  split <;> rfl

theorem lines_elsewhere {sink : Sink} (hstream : sink ≠ .stream stream)
    (hfile : ∀ path, sink ≠ .file path) :
    linesTo sink ((s.handlers stream).filterMap (·.write? r)) = [] := by
  rw [linesTo_handlers]
  unfold handlers
  cases s.path? <;> simp [Ne.symm hstream, fun path => Ne.symm (hfile path)]

end Setup

namespace State

variable {s : State} {setup : Setup} {stream : Nat} {r : Record}

/-- A logger below the shared one, which is as a set-up says, has what the handlers of the set-up write
of a record. -/
theorem Follows.deliver (h : s.Follows setup stream) (hhears : s.hears r.source = true) :
    s.deliver r = (setup.handlers stream).filterMap (·.write? r) := by
  have hlevel : s.levelFor r.source = setup.level := by
    unfold levelFor
    rw [hhears, h.level, bne_iff_ne.mpr Setup.level_ne_notSet]
    rfl
  have hhandlers : s.handlersFor r.source = setup.handlers stream := by
    unfold handlersFor
    rw [hhears, h.keeps, h.handlers, if_pos rfl, if_neg Bool.false_ne_true, List.append_nil]
  unfold State.deliver
  rw [hlevel, hhandlers]
  by_cases hreaches : r.reaches setup.level = true
  · rw [if_pos hreaches]
    rfl
  · rw [if_neg hreaches, eq_comm, List.filterMap_eq_nil_iff]
    intro handler hhandler
    -- a handler is no less strict than the logger
    have hle := Setup.level_le hhandler
    have hnot : ¬ r.reaches handler.level = true := fun hr =>
      hreaches (decide_eq_true (Int.le_trans hle (of_decide_eq_true hr)))
    rw [Handler.write?, if_neg hnot]

theorem Follows.run_lines (h : s.Follows setup stream) {records : List Record}
    (hsources : ∀ r ∈ records, r.source.toList.head? ≠ some '.') :
    let written := (s.run (records.map fun r => .log r.call)).flatMap (·.2)
    linesTo (.stream stream) written =
        (records.filter (·.reaches setup.consoleLevel)).map setup.consoleLayout.line ∧
      ∀ path, setup.path? = some path → linesTo (.file path) written =
        (records.filter (·.reaches Setup.fileLevel)).map Layout.trail.line := by
  induction records generalizing s with
  | nil => exact ⟨rfl, fun _ _ => rfl⟩
  | cons r rest ih =>
    obtain ⟨hr, hrest⟩ := List.forall_mem_cons.mp hsources
    obtain ⟨hstream, hfile⟩ := ih (h.log r.call) hrest
    have hwrites : s.writes (.log r.call) = (setup.handlers stream).filterMap (·.write? r) :=
      h.deliver (hears_of_undotted hr)
    dsimp only at hstream hfile ⊢
    rw [List.map_cons, run, List.flatMap_cons, hwrites]
    refine ⟨?_, fun path hpath => ?_⟩
    · rw [linesTo_append, Setup.lines_to_stream, hstream, lines_cons]
    · rw [linesTo_append, Setup.lines_to_file, hfile path hpath, lines_cons,
        if_congr (and_iff_right hpath) rfl rfl]
      rfl

/-- What is written of records by parts of the program whose names do not begin with dots is what the
set-up shows of them on the console and what it puts into the file. -/
theorem Follows.run_shown (h : s.Follows setup stream) {records : List Record}
    (hsources : ∀ r ∈ records, r.source.toList.head? ≠ some '.') :
    let written := (s.run (records.map fun r => .log r.call)).flatMap (·.2)
    String.join (linesTo (.stream stream) written) = setup.console records ∧
      ∀ path, setup.path? = some path → linesTo (.file path) written = setup.fileLines records := by
  obtain ⟨hstream, hfile⟩ := h.run_lines hsources
  refine ⟨congrArg String.join hstream, fun path hpath => ?_⟩
  rw [hfile path hpath, Setup.fileLines, hpath]
  rfl

end State

/-- Whatever happened before the latest set-up, and whatever has been recorded since, a record of a part
of the program whose name does not begin with a dot is written once to the stream of that set-up if
it is important enough for it, once to the file that it names if it is important enough for
debugging, and nowhere else. -/
theorem written_as_set_up (s : State) (before : List Event) (setup : Setup) (since : List Call)
    {call : Call} {r : Record} (hsource : call.source.toList.head? ≠ some '.')
    (hr : call.record? = some r) :
    let stream := (before.foldl State.after s).streams
    let written := ((before ++ Event.setUp setup :: since.map Event.log).foldl State.after s).writes
      (.log call)
    linesTo (.stream stream) written =
        (if setup.consoleLevel.rank ≤ call.level.rank then [setup.consoleLayout.line r] else []) ∧
      (∀ path, linesTo (.file path) written =
        if setup.path? = some path ∧ Level.debug.rank ≤ call.level.rank then
          [Layout.trail.line r] else []) ∧
      ∀ sink, sink ≠ .stream stream → (∀ path, sink ≠ .file path) → linesTo sink written = [] := by
  obtain ⟨message, -, rfl⟩ := Option.map_eq_some_iff.mp hr
  have hfollows := @State.follows_latest s setup before since
  have hwrites := hfollows.deliver (r := ⟨call.level, call.source, message⟩)
    (State.hears_of_undotted hsource)
  dsimp only
  rw [State.writes, hr, Option.elim_some, hwrites]
  exact ⟨Setup.lines_to_stream, Setup.lines_to_file, fun _ => Setup.lines_elsewhere⟩

/-- After a detailed set-up comes a quiet one with a file: information goes to the file alone. -/
theorem written_as_set_up_quiet :
    let before : List Event := [.setUp ⟨true, none⟩, .log ⟨.info, "a", "first", []⟩]
    let quiet : Setup := ⟨false, some ⟨"trail", true⟩⟩
    let written := ((before ++ Event.setUp quiet :: [].map Event.log).foldl State.after
      State.start).writes (.log ⟨.info, "a..b", "second", []⟩)
    linesTo (.stream 0) written = [] ∧ linesTo (.stream 1) written = [] ∧
      linesTo (.file "trail") written = ["INFO repodoctor.a..b [MainThread]: second\n"] := by
  intro before quiet written
  have hsource : "a..b".toList.head? ≠ some '.' := by decide
  have hrecord : Call.record? ⟨.info, "a..b", "second", []⟩ = some ⟨.info, "a..b", "second"⟩ := rfl
  obtain ⟨hstream, hfile, helsewhere⟩ :=
    written_as_set_up State.start before quiet [] hsource hrecord
  exact ⟨helsewhere (.stream 0) (by decide) nofun, hstream, hfile "trail"⟩

/-! ## A dot before a name -/

/-- If nothing but the shared logger has handlers, what a part of the program records whose name begins
with a single dot does not come to any of them. -/
theorem State.deliver_of_dot {s : State} (houter : s.outer = []) {r : Record} {rest : String}
    (hsource : r.source = "." ++ rest) (hrest : rest.toList.head? ≠ some '.') {sink : Sink}
    (hsink : sink ≠ .fallback) : linesTo sink (s.deliver r) = [] := by
  have hhears : s.hears r.source = false := hsource ▸ not_hears_of_dot hrest
  have hhandlers : s.handlersFor r.source = [] := by
    unfold handlersFor
    rw [hhears, houter]
    rfl
  unfold deliver
  rw [hhandlers]
  split
  · dsimp only
    rw [if_pos (List.isEmpty_nil), linesTo_handlers]
    simp [Handler.lastResort, Ne.symm hsink]
  · rfl

/-- A warning of a part of the program with a dot before its name. -/
def dottedCall : Call := ⟨.warning, ".x", "hi", []⟩

/-- The warning does not come to a console that shows warnings. -/
theorem lost_behind_dot :
    let quiet : Setup := ⟨false, none⟩
    let now := [Event.setUp quiet].foldl State.after State.start
    dottedCall.record? = some ⟨.warning, ".x", "hi"⟩ ∧
      quiet.consoleLevel.rank ≤ dottedCall.level.rank ∧
      linesTo (.stream 0) (now.writes (.log dottedCall)) = [] := by
  intro quiet now
  have hsource : ".x" = "." ++ "x" := rfl
  have hlost : linesTo (.stream 0) (now.deliver ⟨.warning, ".x", "hi"⟩) = [] :=
    State.deliver_of_dot rfl hsource (by decide) Sink.noConfusion
  exact ⟨rfl, by decide, hlost⟩

end Checkup.Log
