import Backlog.Proofs.LogStreams

/-!
# Numbers in the output of a logger

What a logger lets pass is decided by the threshold that it was last set, and in which form it
writes by the format that it was last set, whatever happens in between. What it lets pass is counted
in either form, and an entry in JSON form shows the count. So the numbers in the output increase,
and one is left out exactly where an entry was written in text form.
-/

namespace Backlog

/-- What decides whether a logger writes a line, and how. -/
structure Tuning where
  threshold : Int
  json : Bool
  deriving DecidableEq

def Logger.tuning (g : Logger) : Tuning := ⟨g.threshold, g.json⟩

/-- The tuning of logger `l` after a move. Only calls to that logger matter. -/
def Tuning.after (l : Nat) (t : Tuning) : Move → Tuning
  | .call (.logger k (.threshold rank)) => if k = l then { t with threshold := rank } else t
  | .call (.logger k (.json on)) => if k = l then { t with json := on } else t
  | _ => t

theorem Tuning.after_of_ne {l : Nat} {mv : Move} (h : ¬∃ c, mv = .call (.logger l c))
    (t : Tuning) : t.after l mv = t := by
  unfold after
  split
  · rename_i k rank
    exact if_neg fun hk => h ⟨_, by rw [hk]⟩
  · rename_i k on
    exact if_neg fun hk => h ⟨_, by rw [hk]⟩
  · rfl

namespace World

variable {w w' : World} {l : Nat} {T : Nat → Prop}

/-- The logger is there and tuned as before. -/
structure SameTuning (l : Nat) (w w' : World) : Prop where
  made : l < w'.loggers.size
  tuning : (w'.logger l).tuning = (w.logger l).tuning

theorem tuning_log (w : World) (k : Nat) (line : Line) :
    ((w.log k line).logger l).tuning = (w.logger l).tuning := by
  by_cases hp : (w.logger k).passes line
  · rw [log_of_passes hp, Store.logger, Registry.get_put]
    split
    · rename_i hl
      rw [hl]
      rfl
    · rfl
  · simp [log, hp]

theorem loggers_size_log (w : World) (k : Nat) (line : Line) :
    w.loggers.size ≤ (w.log k line).loggers.size := by
  by_cases hp : (w.logger k).passes line
  · rw [log_of_passes hp, Registry.size_put]
    omega
  · simp [log, hp]

theorem Mark.sameTuning (h : w.Mark T w') (hl : l < w.loggers.size) (hT : ¬T l) :
    SameTuning l w w' := by
  cases h with
  | line k line => exact ⟨Nat.lt_of_lt_of_le hl (loggers_size_log w k line), tuning_log w k line⟩
  | tuned k f hk hf =>
    have hne : l ≠ k := fun he => hT (he ▸ hk)
    refine ⟨?_, ?_⟩
    · simp only [Registry.size_modify]
      omega
    · rw [Store.logger, Registry.get_modify, if_neg hne]
      rfl
  | made g hg hlog hh =>
    refine ⟨?_, ?_⟩
    · rw [hlog, Registry.size_add]
      omega
    · rw [Store.logger, hlog, Registry.get_add, if_neg (Nat.ne_of_lt hl)]
      rfl
  | other es he hlog hh => exact ⟨hlog ▸ hl, by rw [Store.logger, hlog]; rfl⟩

theorem Marks.sameTuning (h : Marks T w w') (hl : l < w.loggers.size) (hT : ¬T l) :
    SameTuning l w w' := by
  induction h with
  | refl => exact ⟨hl, rfl⟩
  | tail _ h ih =>
    have hs := h.sameTuning ih.made hT
    exact ⟨hs.made, hs.tuning.trans ih.tuning⟩

/-- A call to a logger ends at once. -/
theorem step_logger (hl : l < w.loggers.size) (c : LoggerCall) :
    w.step (.call (.logger l c)) = { w with calls := w.calls + 1 }.callLogger w.calls l c :=
  if_pos (decide_eq_true hl)

theorem tuning_step (hl : l < w.loggers.size) (mv : Move) :
    l < (w.step mv).loggers.size ∧
      ((w.step mv).logger l).tuning = (w.logger l).tuning.after l mv := by
  by_cases hc : ∃ c, mv = .call (.logger l c)
  · obtain ⟨c, rfl⟩ := hc
    rw [step_logger hl]
    cases c with
    | line line =>
      exact ⟨Nat.lt_of_lt_of_le hl (loggers_size_log { w with calls := w.calls + 1 } l line),
        tuning_log { w with calls := w.calls + 1 } l line⟩
    | _ =>
      refine ⟨Nat.lt_of_lt_of_le hl ?_, ?_⟩
      · change _ ≤ (w.loggers.modify l _).size
        rw [Registry.size_modify]
        omega
      · change ((w.loggers.modify l _).get l).tuning = _
        rw [Registry.get_modify, if_pos rfl]
        simp only [Tuning.after, if_pos]
        rfl
  · have hs := (marks_step w mv).sameTuning hl hc
    exact ⟨hs.made, hs.tuning.trans (Tuning.after_of_ne hc _).symm⟩

/-- A logger is tuned as the client said last. -/
theorem tuning_run (hl : l < w.loggers.size) (moves : List Move) :
    l < (w.run moves).loggers.size ∧
      ((w.run moves).logger l).tuning = moves.foldl (Tuning.after l) (w.logger l).tuning := by
  induction moves generalizing w with
  | nil => exact ⟨hl, rfl⟩
  | cons mv moves ih =>
    obtain ⟨hl', ht⟩ := tuning_step hl mv
    obtain ⟨hs, hr⟩ := ih hl'
    exact ⟨hs, by rw [run_cons, hr, ht, List.foldl_cons]⟩

/-- A line below the threshold changes nothing. -/
theorem step_line_below (hl : l < w.loggers.size) {line : Line}
    (h : line.level.rank < (w.logger l).threshold) :
    w.step (.call (.logger l (.line line))) =
      { w with calls := w.calls + 1, history := .returned w.calls .unit :: w.history } := by
  have hp : ({ w with calls := w.calls + 1 }.logger l).passes line = false :=
    decide_eq_false (Int.not_le.mpr h)
  rw [step_logger hl]
  simp only [callLogger, log, Logger.log_of_not_passes hp]
  rfl

/-- Another line is written, and numbered by how many were before. -/
theorem entries_step_line (hg : w.Gapless) (hl : l < w.loggers.size) {line : Line}
    (h : (w.logger l).threshold ≤ line.level.rank) :
    (w.step (.call (.logger l (.line line)))).entries l =
      w.entries l ++ [⟨(w.logger l).json, (w.entries l).length, line⟩] := by
  have hn : (w.entries l).length = (w.logger l).written := by
    simpa using congrArg List.length (hg l)
  have hp : ({ w with calls := w.calls + 1 }.logger l).passes line = true := decide_eq_true h
  have hreturned (u : World) (a : Nat) : (u.give a .unit).entries l = u.entries l := by
    simp [entries, give, emit, Event.written?]
  rw [step_logger hl]
  change (World.give (World.log ..) ..).entries l = _
  rw [hreturned, entries_log, if_pos ⟨rfl, hp⟩, hn]
  rfl

/-- The numbers that the entries in JSON form show, in the order of the output. -/
def numbers (w : World) (l : Nat) : List Nat := ((w.entries l).filter (·.json)).map Entry.seq

/-- The entry after `k` others has the number `k`. -/
theorem Gapless.seq (h : w.Gapless) {k : Nat} {e : Entry} (he : (w.entries l)[k]? = some e) :
    e.seq = k := by
  have hk : ((w.entries l).map Entry.seq)[k]? = some e.seq := by rw [List.getElem?_map, he]; rfl
  rw [h l] at hk
  exact (List.getElem?_eq_some_iff.mp hk).2 ▸ List.getElem_range _

theorem Gapless.increasing (h : w.Gapless) (l : Nat) : (w.numbers l).Pairwise (· < ·) := by
  have hs : (w.numbers l).Sublist (List.range (w.logger l).written) := by
    rw [← h l]
    exact List.filter_sublist.map _
  exact List.pairwise_lt_range.sublist hs

/-- A number is left out where an entry was written in text form. -/
theorem Gapless.notMem_numbers_iff (h : w.Gapless) {n : Nat} (hn : n < (w.entries l).length) :
    n ∉ w.numbers l ↔ ∃ e, (w.entries l)[n]? = some e ∧ e.json = false := by
  obtain ⟨e, he⟩ : ∃ e, (w.entries l)[n]? = some e := ⟨_, List.getElem?_eq_getElem hn⟩
  have hmem : n ∈ w.numbers l ↔ e.json = true := by
    simp only [numbers, List.mem_map, List.mem_filter]
    constructor
    · rintro ⟨e', ⟨hm, hj⟩, hseq⟩
      obtain ⟨k, hk⟩ := List.mem_iff_getElem?.mp hm
      obtain rfl : k = n := (h.seq hk).symm.trans hseq
      exact Option.some.inj (he.symm.trans hk) ▸ hj
    · exact fun hj => ⟨e, ⟨List.mem_iff_getElem?.mpr ⟨n, he⟩, hj⟩, h.seq he⟩
  rw [hmem, he, Bool.not_eq_true]
  simp

end World

/-- However it is rendered, the entry is one JSON object and a newline, and the second member of the
object is this number. -/
def Entry.Shows (e : Entry) (n : Nat) : Prop :=
  ∀ time thread, ∃ body members, e.render time thread = .ofList (body ++ ['\n']) ∧
    Json.read body = some (.object (("ts", .text time) :: ("seq", .number n 0) :: members))

theorem Entry.shows_seq {e : Entry} (hj : e.json = true) : e.Shows e.seq := by
  intro time thread
  refine ⟨Json.object (e.members time thread), ((e.members time thread).drop 2).map Json.treeOf,
    ?_, ?_⟩
  · rw [Entry.render, if_pos hj]
  · rw [Json.read_object]
    rfl

namespace World

variable {w : World} {l : Nat}

/-- After any moves, a line is written exactly if its rank is not below the threshold that logger
`l` was last set, and otherwise the call changes nothing. What is written is numbered by how many
entries were before it in either form, and an entry in JSON form shows this number. So the numbers
in the output increase, and one is left out exactly where an entry was written in text form. -/
theorem seq_counts_entries (h : w.Reachable) (hl : l < w.loggers.size) (moves : List Move) :
    let v := w.run moves
    let t := moves.foldl (Tuning.after l) (w.logger l).tuning
    (∀ line : Line, if t.threshold ≤ line.level.rank then
        (v.step (.call (.logger l (.line line)))).entries l =
          v.entries l ++ [⟨t.json, (v.entries l).length, line⟩]
      else v.step (.call (.logger l (.line line))) =
        { v with calls := v.calls + 1, history := .returned v.calls .unit :: v.history }) ∧
    (∀ (k : Nat) e, (v.entries l)[k]? = some e → e.json = true → e.Shows k) ∧
    (v.numbers l).Pairwise (· < ·) ∧
    ∀ n < (v.entries l).length,
      n ∉ v.numbers l ↔ ∃ e, (v.entries l)[n]? = some e ∧ e.json = false := by
  intro v t
  have hg : v.Gapless := by
    obtain ⟨now, ms, rfl⟩ := h
    exact Reachable.gapless ⟨now, ms ++ moves, (run_append ..).symm⟩
  obtain ⟨hv, ht⟩ := tuning_run hl moves
  refine ⟨fun line => ?_, fun k e he hj => ?_, hg.increasing l,
    fun n hn => hg.notMem_numbers_iff hn⟩
  · have hthreshold : (v.logger l).threshold = t.threshold := congrArg Tuning.threshold ht
    have hjson : (v.logger l).json = t.json := congrArg Tuning.json ht
    split
    · rename_i hle
      rw [entries_step_line hg hv (hthreshold ▸ hle), hjson]
    · rename_i hlt
      exact step_line_below hv (hthreshold ▸ Int.not_le.mp hlt)
  · rw [← hg.seq he]
    exact Entry.shows_seq hj

/-- One line in text form, one in JSON form, one that no level passes, and one in text form
again. -/
def switching : List Move :=
  let line (level : Level) (message : String) : Move := .call (.logger 0 (.line { level, message }))
  [line .info "a", .call (.logger 0 (.json true)), line .info "b", .call (.logger 0 (.threshold 9)),
    line .error "c", .call (.logger 0 (.threshold (-1))), .call (.logger 0 (.json false)),
    line .debug "d", .call (.logger 0 (.json true))]

/-- The second line shows that one was before. The next is written although its level is the lowest,
and it shows that three were. -/
theorem seq_counts_entries_switching :
    let v := ((start 0).step (.call .makeLogger)).run switching
    let line : Line := { level := .debug, message := "e" }
    (v.step (.call (.logger 0 (.line line)))).entries 0 = v.entries 0 ++ [⟨true, 3, line⟩] ∧
      (∀ e, (v.entries 0)[1]? = some e → e.Shows 1) ∧ 0 ∉ v.numbers 0 ∧ 2 ∉ v.numbers 0 := by
  intro v line
  have hr : ((start 0).step (.call .makeLogger)).Reachable := ⟨0, [.call .makeLogger], rfl⟩
  have hs := seq_counts_entries hr (l := 0) (by decide +kernel) switching
  have hlength : (v.entries 0).length = 3 := by decide +kernel
  have hbelow (n : Nat) (hn : n < 3) : n < (v.entries 0).length := hlength ▸ hn
  refine ⟨?_, fun e he => hs.2.1 1 e he ?_, (hs.2.2.2 0 (hbelow 0 (by decide))).mpr ?_,
    (hs.2.2.2 2 (hbelow 2 (by decide))).mpr ?_⟩
  · have hn := hs.1 line
    rw [if_pos (by decide +kernel)] at hn
    exact hlength ▸ hn
  · have hj : (v.entries 0)[1]?.map Entry.json = some true := by decide +kernel
    rw [he] at hj
    exact Option.some.inj hj
  · exact ⟨⟨false, 0, { level := .info, message := "a" }⟩, by decide +kernel, rfl⟩
  · exact ⟨⟨false, 2, { level := .debug, message := "d" }⟩, by decide +kernel, rfl⟩

end World

end Backlog
