import Backlog.Proofs.JsonReading
import Backlog.World.Step

/-!
# Entries as JSON objects

An entry of a logger in JSON mode is one object on one line, and reading it gives back what
was logged. What stands inside quotes cannot end them, so nothing that is logged can pass for
another member or another line.
-/

namespace Backlog

namespace Json

/-- A quote stands in the text without a backslash that takes it. -/
def bareQuote : List Char → Bool
  | [] => false
  | '\\' :: _ :: s => bareQuote s
  | c :: s => c = '"' || bareQuote s

theorem bareQuote_escape (c : Char) (s : List Char) : bareQuote (escape c ++ s) = bareQuote s := by
  obtain ⟨l, he, -⟩ | ⟨he, hc⟩ | ⟨he, hq, hb, -⟩ := escape_cases c
  · simp [he, bareQuote]
  · have hd : ∀ n < 16, hexDigit n ≠ '"' ∧ hexDigit n ≠ '\\' := by decide
    have h₁ := hd (c.toNat / 16) (by omega)
    have h₂ := hd (c.toNat % 16) (by omega)
    simp [he, bareQuote, h₁, h₂]
  · simp [he, bareQuote, hq, hb]

theorem bareQuote_escaped (s : List Char) : bareQuote (escaped s) = false := by
  induction s with
  | nil => rfl
  | cons c s ih => rw [escaped_cons, bareQuote_escape, ih]

theorem escaped_injective : Function.Injective escaped := by
  intro s t h
  have hs := codes_escaped s []
  rw [h, codes_escaped t []] at hs
  have hc : s.map Char.toNat = t.map Char.toNat := by simpa using hs.symm
  have := characters?_toNat s
  rw [hc, characters?_toNat t] at this
  exact (Option.some.inj this).symm

/-! ## No control characters -/

/-- No character of the text is a control character. -/
def Plain (s : List Char) : Prop := ∀ c ∈ s, 0x20 ≤ c.toNat

@[simp] theorem plain_nil : Plain [] := by simp [Plain]

@[simp] theorem plain_cons {c : Char} {s : List Char} :
    Plain (c :: s) ↔ 0x20 ≤ c.toNat ∧ Plain s := by simp [Plain]

@[simp] theorem plain_append {s t : List Char} : Plain (s ++ t) ↔ Plain s ∧ Plain t := by
  simp [Plain, or_imp, forall_and]

theorem plain_escape (c : Char) : Plain (escape c) := by
  obtain ⟨l, he, -, -, hl⟩ | ⟨he, hc⟩ | ⟨he, -, -, hc⟩ := escape_cases c
  · simp [he, hl]
  · have hd : ∀ n < 16, 0x20 ≤ (hexDigit n).toNat := by decide
    simp [he, hd (c.toNat / 16) (by omega), hd (c.toNat % 16) (by omega)]
  · simp [he, hc]

@[simp] theorem plain_quoted (s : String) : Plain (quoted s) := by
  have he (s : List Char) : Plain (escaped s) := by
    induction s with
    | nil => simp
    | cons c s ih => simp [plain_escape c, ih]
  simp [quoted, he s.toList]

theorem plain_toDigits (n : Nat) : Plain (Nat.toDigits 10 n) := by
  intro c hc
  have hd := Nat.isDigit_of_mem_toDigits (by decide) (by decide) hc
  simp only [Char.isDigit, Bool.and_eq_true, decide_eq_true_eq] at hd
  have : 48 ≤ c.toNat := hd.1
  omega

theorem plain_member (m : String × Scalar) : Plain (member m) := by
  obtain ⟨k, v⟩ := m
  cases v with
  | text s => simp [member, Scalar.written]
  | number n => simp [member, Scalar.written, plain_toDigits n]

theorem plain_object (ms : List (String × Scalar)) : Plain (object ms) := by
  have hm : Plain (members ms) := by
    induction ms with
    | nil => simp [members]
    | cons m ms ih =>
      cases ms with
      | nil => exact plain_member m
      | cons n ms => simp [members, plain_member m, ih]
  simp [object, hm]

end Json

namespace World

theorem log_of_passes {w : World} {l : Nat} {line : Line} (h : (w.logger l).passes line) :
    w.log l line = { w with
      loggers := w.loggers.put l { w.logger l with written := (w.logger l).written + 1 }
      history := .logged l ⟨(w.logger l).json, (w.logger l).written, line⟩ :: w.history } := by
  simp [log, Logger.log_of_passes h, emit]

/-- A line that a logger in JSON mode lets pass goes out as one object and a newline, without
other control characters. It reads back as the time, the number of entries before, the level,
the thread, the job if there is one, the fields and the message, in this order and to the
letter. -/
theorem entry_reads_back (w : World) {l : Nat} {line : Line} (hj : (w.logger l).json)
    (hp : (w.logger l).passes line) (time thread : String) :
    (∃ e body, (w.log l line).history = .logged l e :: w.history ∧
      e.render time thread = .ofList (body ++ ['\n']) ∧ (∀ c ∈ body, 0x20 ≤ c.toNat) ∧
      Json.read body = some (.object
        ([("ts", .text time), ("seq", .number (w.logger l).written 0),
            ("level", .text line.level.label), ("tid", .text thread)] ++
          (line.job.toList.map fun id => ("job", .text id)) ++
          (line.fields.map fun f => (f.1, .text f.2)) ++
          [("msg", .text line.message)]))) ∧
    Function.Injective Json.escaped ∧ ∀ s, Json.bareQuote (Json.escaped s) = false := by
  refine ⟨?_, Json.escaped_injective, Json.bareQuote_escaped⟩
  let e : Entry := ⟨true, (w.logger l).written, line⟩
  refine ⟨e, Json.object (e.members time thread), ?_, rfl, Json.plain_object _, ?_⟩
  · rw [log_of_passes hp, hj]
  · rw [Json.read_object]
    simp [e, Entry.members, Json.treeOf, Json.Scalar.tree, Function.comp_def]

/-- A message that looks like the end of its member, under an id with a newline. -/
theorem entry_reads_back_forged :
    let w := (start 0).run [.call .makeLogger, .call (.logger 0 (.json true))]
    let line : Line :=
      { level := .warn, job := some "a\nb", message := "\",\"msg\":\"x", fields := [("k\\", "\t")] }
    ∃ e body, (w.log 0 line).history = .logged 0 e :: w.history ∧
      e.render "noon" "7" = .ofList (body ++ ['\n']) ∧ (∀ c ∈ body, 0x20 ≤ c.toNat) ∧
      Json.read body = some (.object [("ts", .text "noon"), ("seq", .number 0 0),
        ("level", .text "WARN"), ("tid", .text "7"), ("job", .text "a\nb"), ("k\\", .text "\t"),
        ("msg", .text "\",\"msg\":\"x")]) := by
  intro w line
  have hj : (w.logger 0).json := rfl
  have hp : (w.logger 0).passes line := rfl
  exact (entry_reads_back w hj hp "noon" "7").1

end World

end Backlog
