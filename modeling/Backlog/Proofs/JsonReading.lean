import Mathlib.Tactic.SplitIfs
import Backlog.Log.Json

/-!
# Reading JSON

A reader for the whole of the JSON grammar, strict in what the grammar is strict in: no comma
after the last item, no zero before a digit, no control character inside quotes, nothing but
blanks around the value. What `Json.object` writes is read back as it was.
-/

namespace Backlog.Json

/-- A value of the grammar. A number is `mantissa * 10 ^ exponent` as it is written; an object
keeps its members in their order, also those of one key. -/
inductive Tree where
  | null
  | flag (b : Bool)
  | number (mantissa exponent : Int)
  | text (s : String)
  | array (items : List Tree)
  | object (members : List (String × Tree))
  deriving Repr

abbrev Reader (α : Type) := List Char → Option (α × List Char)

def blank (c : Char) : Bool := c = ' ' || c = '\t' || c = '\n' || c = '\r'

def skip (s : List Char) : List Char := s.dropWhile blank

/-! ## Text -/

def hexValue? (c : Char) : Option Nat :=
  if '0' ≤ c ∧ c ≤ '9' then some (c.toNat - '0'.toNat)
  else if 'a' ≤ c ∧ c ≤ 'f' then some (c.toNat - 'a'.toNat + 10)
  else if 'A' ≤ c ∧ c ≤ 'F' then some (c.toNat - 'A'.toNat + 10)
  else none

def unit? (a b c d : Char) : Option Nat := do
  return (((← hexValue? a) * 16 + (← hexValue? b)) * 16 + (← hexValue? c)) * 16 + (← hexValue? d)

/-- What a letter after a backslash stands for. -/
def letter? : Char → Option Char
  | '"' => some '"'
  | '\\' => some '\\'
  | '/' => some '/'
  | 'b' => some (Char.ofNat 8)
  | 'f' => some (Char.ofNat 12)
  | 'n' => some '\n'
  | 'r' => some '\r'
  | 't' => some '\t'
  | _ => none

/-- The code points up to the closing quote. The halves of a surrogate pair are still apart. -/
def codes : Reader (List Nat)
  | [] => none
  | '\\' :: 'u' :: a :: b :: c :: d :: rest => do
    let n ← unit? a b c d
    let (ns, rest) ← codes rest
    return (n :: ns, rest)
  | '\\' :: c :: rest => do
    let c ← letter? c
    let (ns, rest) ← codes rest
    return (c.toNat :: ns, rest)
  | c :: rest =>
    if c = '"' then some ([], rest)
    else if c = '\\' ∨ c.toNat < 0x20 then none
    else do
      let (ns, rest) ← codes rest
      return (c.toNat :: ns, rest)

def high (n : Nat) : Bool := 0xd800 ≤ n && n < 0xdc00

def low (n : Nat) : Bool := 0xdc00 ≤ n && n < 0xe000

/-- The characters of these code points. Half a pair is no character. -/
def characters? : List Nat → Option (List Char)
  | [] => some []
  | [n] => if high n || low n then none else some [Char.ofNat n]
  | n :: m :: rest =>
    if high n then
      if low m then
        (characters? rest).map (Char.ofNat (0x10000 + (n - 0xd800) * 0x400 + (m - 0xdc00)) :: ·)
      else none
    else if low n then none
    else (characters? (m :: rest)).map (Char.ofNat n :: ·)

/-- The text whose opening quote was read. -/
def string : Reader String := fun s => do
  let (ns, rest) ← codes s
  return (String.ofList (← characters? ns), rest)

/-! ## Numbers -/

def span (s : List Char) : List Char × List Char := (s.takeWhile (·.isDigit), s.dropWhile (·.isDigit))

def whole : Reader (List Char) := fun s =>
  match span s with
  | ([], _) => none
  | ('0' :: _ :: _, _) => none
  | r => some r

def fraction : Reader (List Char)
  | '.' :: s =>
    match span s with
    | ([], _) => none
    | r => some r
  | s => some ([], s)

def sign : List Char → Int × List Char
  | '-' :: s => (-1, s)
  | '+' :: s => (1, s)
  | s => (1, s)

def exponent : Reader Int
  | [] => some (0, [])
  | c :: s =>
    if c = 'e' ∨ c = 'E' then
      match span (sign s).2 with
      | ([], _) => none
      | (ds, rest) => some ((sign s).1 * Nat.ofDigitChars 10 ds 0, rest)
    else some (0, c :: s)

def unsigned : Reader (Nat × Int) := fun s => do
  let (ds, s) ← whole s
  let (fs, s) ← fraction s
  let (e, s) ← exponent s
  return ((Nat.ofDigitChars 10 (ds ++ fs) 0, e - fs.length), s)

def number : Reader Tree
  | '-' :: s => do
    let ((m, e), s) ← unsigned s
    return (.number (-m) e, s)
  | s => do
    let ((m, e), s) ← unsigned s
    return (.number m e, s)

/-! ## Values -/

def word (t : Tree) (w : String) : Reader Tree := fun s =>
  if w.toList.isPrefixOf s then some (t, s.drop w.length) else none

variable {α : Type}

/-- One item or more, as many as `bound`, with commas between them, up to the closing character. -/
def items (item : Reader α) (close : Char) : Nat → Reader (List α)
  | 0, _ => none
  | bound + 1, s => do
    let (x, s) ← item s
    match skip s with
    | [] => none
    | c :: s =>
      if c = ',' then do
        let (xs, s) ← items item close bound s
        return (x :: xs, s)
      else if c = close then some ([x], s)
      else none

/-- The items after the opening character. There are at most as many as characters. -/
def sequence (item : Reader α) (close : Char) : Reader (List α) := fun s =>
  match skip s with
  | [] => none
  | c :: rest => if c = close then some ([], rest) else items item close s.length s

def pair (value : Reader Tree) : Reader (String × Tree) := fun s =>
  match skip s with
  | '"' :: s => do
    let (k, s) ← string s
    match skip s with
    | ':' :: s => do
      let (v, s) ← value s
      return ((k, v), s)
    | _ => none
  | _ => none

/-- A value nested less deep than `depth`. -/
def value : Nat → Reader Tree
  | 0, _ => none
  | depth + 1, s =>
    match skip s with
    | [] => none
    | c :: rest =>
      if c = '"' then (string rest).map fun (t, s) => (.text t, s)
      else if c = '[' then
        (sequence (value depth) ']' rest).map fun (ts, s) => (.array ts, s)
      else if c = '\x7b' then
        (sequence (pair (value depth)) '\x7d' rest).map fun (ms, s) => (.object ms, s)
      else
        word .null "null" (c :: rest) <|> word (.flag true) "true" (c :: rest) <|>
          word (.flag false) "false" (c :: rest) <|> number (c :: rest)

/-- The value that is the whole of a text. No value nests deeper than its text is long. -/
def read (s : List Char) : Option Tree :=
  match value (s.length + 1) s with
  | some (t, rest) => if rest.all blank then some t else none
  | none => none

example : read " [1.50, -2e3, \x7b\"a\": null, \"a\": \"\\ud83d\\ude00\\/\"\x7d, true ]\n".toList =
    some (.array [.number 150 (-2), .number (-2) 3,
      .object [("a", .null), ("a", .text "😀/")], .flag true]) := by rfl

example : read "[1,]".toList = none ∧ read "01".toList = none ∧ read "\"\n\"".toList = none := by
  decide +kernel

/-! ## Text that was written is read back -/

theorem hexValue?_hexDigit : ∀ n < 16, hexValue? (hexDigit n) = some n := by decide

/-- A character is written as a letter after a backslash, as its code, or as itself. -/
theorem escape_cases (c : Char) :
    (∃ l, escape c = ['\\', l] ∧ letter? l = some c ∧ l ≠ 'u' ∧ 0x20 ≤ l.toNat) ∨
    (escape c = ['\\', 'u', '0', '0', hexDigit (c.toNat / 16), hexDigit (c.toNat % 16)] ∧
      c.toNat < 0x20) ∨
    (escape c = [c] ∧ c ≠ '"' ∧ c ≠ '\\' ∧ 0x20 ≤ c.toNat) := by
  unfold escape
  split_ifs with hq hb hn hr ht hc
  · exact .inl ⟨'"', rfl, by rw [hq]; rfl, by decide, by decide⟩
  · exact .inl ⟨'\\', rfl, by rw [hb]; rfl, by decide, by decide⟩
  · exact .inl ⟨'n', rfl, by rw [hn]; rfl, by decide, by decide⟩
  · exact .inl ⟨'r', rfl, by rw [hr]; rfl, by decide, by decide⟩
  · exact .inl ⟨'t', rfl, by rw [ht]; rfl, by decide, by decide⟩
  · exact .inr (.inl ⟨rfl, hc⟩)
  · exact .inr (.inr ⟨rfl, hq, hb, by omega⟩)

theorem codes_letter {l c : Char} (hl : letter? l = some c) (hu : l ≠ 'u') (rest : List Char) :
    codes ('\\' :: l :: rest) = (codes rest).map fun (ns, rest) => (c.toNat :: ns, rest) := by
  rw [codes]
  · simp only [hl]
    cases codes rest <;> rfl
  · intro _ _ _ _ _ h _
    exact hu h

theorem codes_code {c : Char} (hc : c.toNat < 0x20) (rest : List Char) :
    codes ('\\' :: 'u' :: '0' :: '0' :: hexDigit (c.toNat / 16) :: hexDigit (c.toNat % 16) :: rest) =
      (codes rest).map fun (ns, rest) => (c.toNat :: ns, rest) := by
  have hn : unit? '0' '0' (hexDigit (c.toNat / 16)) (hexDigit (c.toNat % 16)) = some c.toNat := by
    have h0 : hexValue? '0' = some 0 := by decide
    simp [unit?, h0, hexValue?_hexDigit (c.toNat / 16) (by omega),
      hexValue?_hexDigit (c.toNat % 16) (by omega)]
    omega
  simp only [codes, hn]
  cases codes rest <;> rfl

theorem codes_plain {c : Char} (hq : c ≠ '"') (hb : c ≠ '\\') (hc : 0x20 ≤ c.toNat)
    (rest : List Char) :
    codes (c :: rest) = (codes rest).map fun (ns, rest) => (c.toNat :: ns, rest) := by
  have hc' : ¬ (c = '\\' ∨ c.toNat < 0x20) := by simp [hb]; omega
  rw [codes]
  · simp only [hq, hc', if_false]
    cases codes rest <;> rfl
  · intro _ _ _ _ _ h
    exact absurd h hb
  · intro _ _ h
    exact absurd h hb

theorem codes_escape (c : Char) (rest : List Char) :
    codes (escape c ++ rest) = (codes rest).map fun (ns, rest) => (c.toNat :: ns, rest) := by
  obtain ⟨l, he, hl, hu, -⟩ | ⟨he, hc⟩ | ⟨he, hq, hb, hc⟩ := escape_cases c
  · rw [he]; exact codes_letter hl hu rest
  · rw [he]; exact codes_code hc rest
  · rw [he]; exact codes_plain hq hb hc rest

theorem codes_escaped (s rest : List Char) :
    codes (escaped s ++ '"' :: rest) = some (s.map Char.toNat, rest) := by
  induction s with
  | nil => simp [codes]
  | cons c s ih => simp [codes_escape, ih]

theorem characters?_toNat (s : List Char) : characters? (s.map Char.toNat) = some s := by
  have hh (c : Char) : high c.toNat = false ∧ low c.toNat = false := by
    have hv : c.toNat < 0xd800 ∨ 0xdfff < c.toNat ∧ c.toNat < 0x110000 := c.valid
    simp only [high, low, Bool.and_eq_false_iff, decide_eq_false_iff_not]
    omega
  induction s with
  | nil => rfl
  | cons c s ih =>
    cases s with
    | nil => simp [characters?, hh]
    | cons d s => simpa [characters?, hh] using ih

theorem string_escaped (s : String) (rest : List Char) :
    string (escaped s.toList ++ '"' :: rest) = some (s, rest) := by
  simp [string, codes_escaped, characters?_toNat]

/-! ## What was written is read back -/

def Scalar.tree : Scalar → Tree
  | .text s => .text s
  | .number n => .number n 0

theorem skip_of_not_blank {c : Char} (h : blank c = false) (rest : List Char) :
    skip (c :: rest) = c :: rest := by
  simp [skip, h]

theorem value_quoted (depth : Nat) (s : String) (rest : List Char) :
    value (depth + 1) (quoted s ++ rest) = some (.text s, rest) := by
  simp [value, quoted, skip_of_not_blank (c := '"') rfl, string_escaped]

/-- What may stand after a member: the comma before the next, or the end of the object. -/
def Closes (rest : List Char) : Prop := ∃ c s, rest = c :: s ∧ (c = ',' ∨ c = '\x7d')

theorem span_digits {ds rest : List Char} (hd : ∀ c ∈ ds, c.isDigit) (hr : Closes rest) :
    span (ds ++ rest) = (ds, rest) := by
  obtain ⟨c, s, rfl, hc⟩ := hr
  have hc : c.isDigit = false := by rcases hc with rfl | rfl <;> decide
  simp [span, List.takeWhile_append_of_pos hd, List.dropWhile_append_of_pos hd, hc]

/-- Only the number zero is written with a zero first. -/
theorem eq_zero_of_toDigits {n : Nat} {ds : List Char} (h : Nat.toDigits 10 n = '0' :: ds) :
    n = 0 := by
  induction n using Nat.strongRecOn generalizing ds with
  | ind n ih =>
    by_cases hn : n < 10
    · simp only [Nat.toDigits_of_lt_base hn, List.cons.injEq, Nat.digitChar_eq_zero] at h
      exact h.1
    · obtain ⟨d, es, hd⟩ := List.exists_cons_of_ne_nil (Nat.toDigits_ne_nil (n := n / 10) (b := 10))
      rw [Nat.toDigits_of_base_le (by decide) (by omega), hd, List.cons_append,
        List.cons.injEq] at h
      have := ih (n / 10) (by omega) (h.1 ▸ hd)
      omega

theorem whole_toDigits (n : Nat) {rest : List Char} (hr : Closes rest) :
    whole (Nat.toDigits 10 n ++ rest) = some (Nat.toDigits 10 n, rest) := by
  have hs : span (Nat.toDigits 10 n ++ rest) = (Nat.toDigits 10 n, rest) :=
    span_digits (fun c hc => Nat.isDigit_of_mem_toDigits (by decide) (by decide) hc) hr
  unfold whole
  split
  · next h => simp [hs] at h
  · next h =>
    rw [hs, Prod.mk.injEq] at h
    simp [eq_zero_of_toDigits h.1] at h
  · rw [hs]

theorem unsigned_toDigits (n : Nat) {rest : List Char} (hr : Closes rest) :
    unsigned (Nat.toDigits 10 n ++ rest) = some ((n, 0), rest) := by
  have hf : fraction rest = some ([], rest) := by
    obtain ⟨c, s, rfl, rfl | rfl⟩ := hr <;> rfl
  have he : exponent rest = some (0, rest) := by
    obtain ⟨c, s, rfl, rfl | rfl⟩ := hr <;> rfl
  simp [unsigned, whole_toDigits n hr, hf, he, Nat.ofDigitChars_ten_toDigits]

theorem value_number (depth n : Nat) {rest : List Char} (hr : Closes rest) :
    value (depth + 1) (Nat.toDigits 10 n ++ rest) = some (.number n 0, rest) := by
  have hu := unsigned_toDigits n hr
  obtain ⟨d, ds, hd⟩ := List.exists_cons_of_ne_nil (Nat.toDigits_ne_nil (n := n) (b := 10))
  have hdig : d.isDigit :=
    Nat.isDigit_of_mem_toDigits (b := 10) (n := n) (by decide) (by decide) (by simp [hd])
  have hne (c : Char) (hc : c.isDigit = false) : d ≠ c := by rintro rfl; simp [hc] at hdig
  have hb : blank d = false := by
    simp [blank, hne ' ' rfl, hne '\t' rfl, hne '\n' rfl, hne '\r' rfl]
  have hn : number (d :: (ds ++ rest)) = some (.number n 0, rest) := by
    rw [hd, List.cons_append] at hu
    rw [number]
    · simp [hu]
    · intro s h
      exact hne '-' rfl (List.cons.inj h).1
  rw [hd, List.cons_append, value]
  simp [skip_of_not_blank hb, hn, word, hne '"' rfl, hne '[' rfl, hne '\x7b' rfl,
    (hne 'n' rfl).symm, (hne 't' rfl).symm, (hne 'f' rfl).symm]

/-! ## Objects that were written are read back -/

def treeOf (m : String × Scalar) : String × Tree := (m.1, m.2.tree)

theorem value_written (depth : Nat) (v : Scalar) {rest : List Char} (hr : Closes rest) :
    value (depth + 1) (v.written ++ rest) = some (v.tree, rest) := by
  cases v with
  | text s => exact value_quoted depth s rest
  | number n => exact value_number depth n hr

theorem pair_member (depth : Nat) (m : String × Scalar) {rest : List Char} (hr : Closes rest) :
    pair (value (depth + 1)) (member m ++ rest) = some (treeOf m, rest) := by
  have hs : skip (member m ++ rest) =
      '"' :: (escaped m.1.toList ++ '"' :: (':' :: (m.2.written ++ rest))) := by
    simp [member, quoted, skip_of_not_blank (c := '"') rfl]
  simp [pair, hs, string_escaped, skip_of_not_blank (c := ':') rfl, value_written depth m.2 hr, treeOf]

theorem items_members (depth : Nat) (m : String × Scalar) (ms : List (String × Scalar))
    {bound : Nat} (hb : ms.length < bound) (rest : List Char) :
    items (pair (value (depth + 1))) '\x7d' bound (members (m :: ms) ++ '\x7d' :: rest) =
      some ((m :: ms).map treeOf, rest) := by
  induction ms generalizing m bound with
  | nil =>
    obtain ⟨bound, rfl⟩ : ∃ b, bound = b + 1 := ⟨bound - 1, by omega⟩
    have hr : Closes ('\x7d' :: rest) := ⟨_, _, rfl, .inr rfl⟩
    have hm := pair_member depth m hr
    simp [items, members, hm, skip_of_not_blank (c := '\x7d') rfl]
  | cons n ms ih =>
    obtain ⟨bound, rfl⟩ : ∃ b, bound = b + 1 := ⟨bound - 1, by omega⟩
    have hr : Closes (',' :: (members (n :: ms) ++ '\x7d' :: rest)) := ⟨_, _, rfl, .inl rfl⟩
    have hm := pair_member depth m hr
    have hb : ms.length < bound := by simpa using hb
    have ht := ih n hb
    simp [items, members, hm, skip_of_not_blank (c := ',') rfl, ht]

theorem length_members (ms : List (String × Scalar)) : ms.length ≤ (members ms).length := by
  induction ms with
  | nil => simp
  | cons m ms ih =>
    cases ms with
    | nil => simp [members, member, quoted]
    | cons n ms =>
      simp only [members, List.length_append, List.length_cons] at ih ⊢
      omega

theorem members_head (m : String × Scalar) (ms : List (String × Scalar)) (rest : List Char) :
    ∃ s, members (m :: ms) ++ rest = '"' :: s := by
  cases ms <;> exact ⟨_, rfl⟩

theorem sequence_members (depth : Nat) (ms : List (String × Scalar)) (rest : List Char) :
    sequence (pair (value (depth + 1))) '\x7d' (members ms ++ '\x7d' :: rest) =
      some (ms.map treeOf, rest) := by
  cases ms with
  | nil => rfl
  | cons m ms =>
    have hl : ms.length < (members (m :: ms) ++ '\x7d' :: rest).length := by
      have := length_members (m :: ms)
      simp only [List.length_cons, List.length_append] at this ⊢
      omega
    have hi := items_members depth m ms hl rest
    obtain ⟨s, hs⟩ := members_head m ms ('\x7d' :: rest)
    rw [hs] at hi ⊢
    simpa [sequence, skip_of_not_blank (c := '"') rfl] using hi

/-- An object is read back member by member. -/
theorem read_object (ms : List (String × Scalar)) :
    read (object ms) = some (.object (ms.map treeOf)) := by
  have hv (depth : Nat) : value (depth + 2) (object ms) = some (.object (ms.map treeOf), []) := by
    rw [value]
    simp [object, skip_of_not_blank (c := '\x7b') rfl, sequence_members]
  obtain ⟨depth, hd⟩ : ∃ d, (object ms).length = d + 1 := ⟨_, by simp [object]; rfl⟩
  simp [read, hd, hv]

end Backlog.Json
