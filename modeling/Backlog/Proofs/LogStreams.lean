import Mathlib.Algebra.Order.Ring.Nat
import Backlog.Proofs.LogMarks
import Backlog.Proofs.LogObjects

/-!
# What loggers have written

The entries of a logger are numbered without a gap, whatever it was tuned to in between. Every
line of its output is accounted for: one for each entry, and one more for each newline that was
logged while the logger wrote text.
-/

namespace Backlog

def newlines (s : List Char) : Nat := s.count '\n'

@[simp] theorem newlines_nil : newlines [] = 0 := rfl

@[simp] theorem newlines_cons (c : Char) (s : List Char) :
    newlines (c :: s) = (if c = '\n' then 1 else 0) + newlines s := by
  simp [newlines, List.count_cons, Nat.add_comm]

@[simp] theorem newlines_append (s t : List Char) :
    newlines (s ++ t) = newlines s + newlines t := List.count_append

theorem newlines_of_plain {s : List Char} (h : Json.Plain s) : newlines s = 0 := by
  refine List.count_eq_zero.mpr fun hm => ?_
  exact absurd (h _ hm) (by decide)

/-- The newlines that are logged with a line. -/
def Line.breaks (l : Line) : Nat :=
  (l.job.elim 0 fun id => newlines id.toList) + newlines l.message.toList +
    (l.fields.map fun f => newlines f.1.toList + newlines f.2.toList).sum

namespace Entry

/-- The newlines in an entry before the one that ends it. -/
def breaks (e : Entry) : Nat := if e.json then 0 else e.line.breaks

theorem newlines_pairs (fs : List (String × String)) :
    newlines (pairs fs) = (fs.map fun f => newlines f.1.toList + newlines f.2.toList).sum := by
  induction fs with
  | nil => rfl
  | cons f fs ih =>
    cases fs with
    | nil => simp [pairs]
    | cons g fs => simp [pairs, ih]; omega

@[simp] theorem newlines_bracketed (s : List Char) : newlines (bracketed s) = newlines s := by
  simp [bracketed]

theorem newlines_text (e : Entry) {time thread : String} (ht : newlines time.toList = 0)
    (hd : newlines thread.toList = 0) : newlines (e.text time thread) = e.line.breaks := by
  obtain ⟨json, seq, level, job, message, fields⟩ := e
  have hl : newlines level.label.toList = 0 := by cases level <;> decide
  cases job <;> cases fields <;> simp [text, Line.breaks, newlines_pairs, ht, hd, hl, Nat.add_assoc]

/-- What an entry consists of besides the newline that ends it. -/
def body (e : Entry) (time thread : String) : List Char :=
  if e.json then Json.object (e.members time thread) else e.text time thread

theorem newlines_body (e : Entry) {time thread : String} (ht : newlines time.toList = 0)
    (hd : newlines thread.toList = 0) : newlines (e.body time thread) = e.breaks := by
  unfold body breaks
  split
  · exact newlines_of_plain (Json.plain_object _)
  · exact newlines_text e ht hd

end Entry

@[simp] theorem Event.written?_logged (l : Nat) (e : Entry) : (logged l e).written? l = some e := by
  simp [written?]

namespace World

variable {w w' : World} {l : Nat} {T : Nat → Prop}

/-- What logger `l` has written, the oldest first. -/
def entries (w : World) (l : Nat) : List Entry := w.history.reverse.filterMap (Event.written? l)

/-- The output of logger `l` if its clock and its thread were these at each entry. -/
def output (w : World) (l : Nat) (time thread : Nat → String) : List Char :=
  (w.entries l).flatMap fun e => (e.render (time e.seq) (thread e.seq)).toList

/-- The entries of every logger are numbered by how many came before. -/
def Gapless (w : World) : Prop :=
  ∀ l, (w.entries l).map Entry.seq = List.range (w.logger l).written

theorem entries_log (w : World) (k l : Nat) (line : Line) :
    (w.log k line).entries l = w.entries l ++
      if k = l ∧ (w.logger k).passes line then [⟨(w.logger k).json, (w.logger k).written, line⟩]
      else [] := by
  by_cases hp : (w.logger k).passes line
  · rw [log_of_passes hp]
    by_cases hk : k = l
    · subst hk
      simp [entries, hp]
    · simp [entries, Event.written?, hk]
  · simp [log, hp]

theorem written_log (w : World) (k l : Nat) (line : Line) :
    ((w.log k line).logger l).written =
      (w.logger l).written + if k = l ∧ (w.logger k).passes line then 1 else 0 := by
  by_cases hp : (w.logger k).passes line
  · rw [log_of_passes hp]
    by_cases hk : k = l
    · subst hk
      simp [Store.logger] at hp ⊢
      simp [hp]
    · simp [Store.logger, hk, Ne.symm hk]
  · simp [log, hp]

theorem Mark.gapless (h : w.Mark T w') (hw : w.Gapless) : w'.Gapless := by
  intro l
  cases h with
  | line k line =>
    rw [entries_log, written_log]
    split
    · rename_i hk
      obtain ⟨rfl, -⟩ := hk
      simpa [List.range_succ] using hw k
    · simpa using hw l
  | tuned k f hT hf =>
    have hg : ((w.loggers.modify k f).get l).written = (w.logger l).written := by
      rw [Registry.get_modify]
      split
      · next he => rw [hf, he]; rfl
      · rfl
    exact (hw l).trans (congrArg List.range hg.symm)
  | made g hg hl hh =>
    have hg : (w'.logger l).written = (w.logger l).written := by
      rw [Store.logger, hl, Registry.get_add]
      split
      · next he => rw [hg, Store.logger, Registry.get_of_size_le (Nat.le_of_eq he.symm)]; rfl
      · rfl
    rw [hg, entries, hh]
    exact hw l
  | other es he hl hh =>
    have hn : es.reverse.filterMap (Event.written? l) = [] :=
      List.filterMap_eq_nil_iff.mpr fun e hm => he e (List.mem_reverse.mp hm) l
    rw [entries, hh, List.reverse_append, List.filterMap_append, hn, List.append_nil, Store.logger, hl]
    exact hw l

theorem Marks.gapless (h : Marks T w w') (hw : w.Gapless) : w'.Gapless := by
  induction h with
  | refl => exact hw
  | tail _ h ih => exact h.gapless ih

theorem Reachable.gapless (h : w.Reachable) : w.Gapless :=
  h.induction (fun _ _ => rfl) fun w mv hw => (marks_step w mv).gapless hw

theorem newlines_output (w : World) (l : Nat) {time thread : Nat → String}
    (ht : ∀ k, newlines (time k).toList = 0) (hd : ∀ k, newlines (thread k).toList = 0) :
    newlines (w.output l time thread) =
      (w.entries l).length + ((w.entries l).map Entry.breaks).sum := by
  unfold output
  induction w.entries l with
  | nil => rfl
  | cons e es ih =>
    have hr : newlines (e.render (time e.seq) (thread e.seq)).toList = e.breaks + 1 := by
      rw [← e.newlines_body (ht e.seq) (hd e.seq)]
      simp [Entry.render, Entry.body]
    simp only [List.flatMap_cons, newlines_append, hr, ih, List.length_cons, List.map_cons, List.sum_cons]
    omega

/-- The output of a logger has one line for each entry and, for what was logged in text form,
one more for each newline in the job's id, the message and the fields. An entry in JSON form is
always one line. -/
theorem lines_of_output (h : w.Reachable) (l : Nat) {time thread : Nat → String}
    (ht : ∀ k, newlines (time k).toList = 0) (hd : ∀ k, newlines (thread k).toList = 0) :
    (w.entries l).length = (w.logger l).written ∧
    newlines (w.output l time thread) =
      (w.logger l).written + ((w.entries l).map fun e => if e.json then 0 else e.line.breaks).sum ∧
    ∀ e ∈ w.entries l, ∃ body, e.render (time e.seq) (thread e.seq) = .ofList (body ++ ['\n']) ∧
      newlines body = if e.json then 0 else e.line.breaks := by
  have hn : (w.entries l).length = (w.logger l).written := by
    simpa using congrArg List.length (h.gapless l)
  refine ⟨hn, hn ▸ newlines_output w l ht hd, fun e _ => ?_⟩
  exact ⟨e.body (time e.seq) (thread e.seq), rfl, e.newlines_body (ht e.seq) (hd e.seq)⟩

/-- Two lines in text form and one in JSON form, each with a newline in its message. -/
theorem lines_of_output_switched :
    let line : Line := { level := .error, message := "a\nb" }
    let w := (start 0).run [.call .makeLogger, .call (.logger 0 (.line line)),
      .call (.logger 0 (.line line)), .call (.logger 0 (.json true)), .call (.logger 0 (.line line))]
    (w.entries 0).length = 3 ∧
      newlines (w.output 0 (fun _ => "noon") fun _ => "7") = 5 := by
  intro line w
  have hr : w.Reachable := ⟨0, _, rfl⟩
  have ht (_ : Nat) : newlines "noon".toList = 0 := by decide
  have hd (_ : Nat) : newlines "7".toList = 0 := by decide
  have h := lines_of_output hr 0 ht hd
  have hw : (w.logger 0).written = 3 := by decide +kernel
  have hb : ((w.entries 0).map fun e => if e.json then 0 else e.line.breaks).sum = 2 := by
    decide +kernel
  rw [hw, hb] at h
  exact ⟨h.1, h.2.1⟩

/-- A message with a newline in it passes for two entries. -/
theorem message_passes_for_entry :
    let info (message : String) : Move := .call (.logger 0 (.line { level := .info, message }))
    let one := (start 0).run [.call .makeLogger, info "a\n[noon] [INFO] [tid=7] b"]
    let two := (start 0).run [.call .makeLogger, info "a", info "b"]
    (one.entries 0).length = 1 ∧ newlines (one.output 0 (fun _ => "noon") fun _ => "7") = 2 ∧
      (two.entries 0).length = 2 ∧
      one.output 0 (fun _ => "noon") (fun _ => "7") =
        two.output 0 (fun _ => "noon") fun _ => "7" := by
  decide +kernel

end World

end Backlog
