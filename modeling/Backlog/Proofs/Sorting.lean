import Backlog.Proofs.Comparison
import Backlog.Sort
import Mathlib.Data.List.Perm.Basic

/-!
# Sorting by run order

Tickets that are sorted by run order come out in run order, and those that are equal in it stay in
the order in which they were given. If two of them do not compare, the sort may fail, and then it
says so of two that do not.
-/

namespace Backlog.Sort

variable {α β γ ε : Type}

/-- It fails as `bad` says or gives what `good` says. -/
def Gives (bad : ε → Prop) (good : β → Prop) : Except ε β → Prop
  | .error e => bad e
  | .ok b => good b

section

variable {bad : ε → Prop} {good : β → Prop} {good' : γ → Prop}

theorem Gives.bind {m : Except ε β} {f : β → Except ε γ} (h : Gives bad good m)
    (hf : ∀ b, good b → Gives bad good' (f b)) : Gives bad good' (m >>= f) := by
  cases m with
  | error e => exact h
  | ok b => exact hf b h

theorem Gives.mono {m : Except ε β} {weaker : β → Prop} (h : Gives bad good m)
    (hg : ∀ b, good b → weaker b) : Gives bad weaker m := by
  cases m with
  | error e => exact h
  | ok b => exact hg b h

end

section

variable {cmp : α → α → Ordering} {x y : α} {xs ys zs : List α} {ss : List (List α)}

/-- No element comes after a later one. -/
def Ascends (cmp : α → α → Ordering) (xs : List α) : Prop :=
  xs.Pairwise fun a b => (cmp a b).isLE = true

/-- The lists have the same elements, and those that compare equal in the same order. -/
structure Keeps (cmp : α → α → Ordering) (xs ys : List α) : Prop where
  perm : ys.Perm xs
  ties : ∀ a, ys.filter (fun b => cmp a b = .eq) = xs.filter (fun b => cmp a b = .eq)

namespace Keeps

theorem refl (cmp : α → α → Ordering) (xs : List α) : Keeps cmp xs xs := ⟨.refl _, fun _ => rfl⟩

theorem trans (h : Keeps cmp xs ys) (h' : Keeps cmp ys zs) : Keeps cmp xs zs :=
  ⟨h'.perm.trans h.perm, fun a => (h'.ties a).trans (h.ties a)⟩

theorem append {xs' ys' : List α} (h : Keeps cmp xs ys) (h' : Keeps cmp xs' ys') :
    Keeps cmp (xs ++ xs') (ys ++ ys') :=
  ⟨h.perm.append h'.perm, fun a => by rw [List.filter_append, List.filter_append, h.ties, h'.ties]⟩

theorem cons (h : Keeps cmp xs ys) (x : α) : Keeps cmp (x :: xs) (x :: ys) :=
  (refl cmp [x]).append h

/-- An element goes ahead of those that it comes before. -/
theorem move [Std.TransCmp cmp] (h : ∀ x ∈ xs, cmp y x = .lt) (ys : List α) :
    Keeps cmp (xs ++ y :: ys) (y :: (xs ++ ys)) := by
  refine ⟨List.perm_middle.symm, fun a => ?_⟩
  by_cases ha : cmp a y = .eq
  · have hxs : xs.filter (fun b => cmp a b = .eq) = [] := by
      refine List.filter_eq_nil_iff.mpr fun x hx => ?_
      rw [Std.TransCmp.congr_left ha, h x hx]
      decide
    simp [ha, hxs]
  · simp [ha]

theorem all {S : α → Prop} (h : Keeps cmp xs ys) (hx : ∀ x ∈ xs, S x) : ∀ y ∈ ys, S y :=
  fun y hy => hx y (h.perm.mem_iff.mp hy)

end Keeps

/-- `ys` is `xs` in ascending order. -/
structure Sorted (cmp : α → α → Ordering) (xs ys : List α) : Prop extends Keeps cmp xs ys where
  ascends : Ascends cmp ys

theorem Keeps.sorted (h : Keeps cmp xs ys) (hs : Sorted cmp ys zs) : Sorted cmp xs zs :=
  ⟨h.trans hs.toKeeps, hs.ascends⟩

theorem Sorted.nil (cmp : α → α → Ordering) : Sorted cmp [] [] := ⟨.refl cmp [], .nil⟩

/-- An element stays ahead that comes after no other. -/
theorem Sorted.cons (h : Sorted cmp xs zs) (hx : ∀ y ∈ xs, (cmp x y).isLE = true) :
    Sorted cmp (x :: xs) (x :: zs) :=
  ⟨h.toKeeps.cons x, List.pairwise_cons.mpr ⟨h.toKeeps.all hx, h.ascends⟩⟩

/-- An element stays behind that comes before no other. -/
theorem Sorted.concat (h : Sorted cmp xs zs) (hx : ∀ y ∈ xs, (cmp y x).isLE = true) :
    Sorted cmp (xs ++ [x]) (zs ++ [x]) := by
  refine ⟨h.toKeeps.append (.refl cmp [x]), List.pairwise_append.mpr ⟨h.ascends,
    List.pairwise_singleton .., fun y hy z hz => ?_⟩⟩
  rw [List.mem_singleton.mp hz]
  exact h.toKeeps.all hx y hy

/-- The lists ascend, one by one, and together they have what `xs` has. -/
structure Blocks (cmp : α → α → Ordering) (xs : List α) (ss : List (List α)) : Prop where
  keeps : Keeps cmp xs ss.flatten
  ascend : ∀ s ∈ ss, Ascends cmp s

/-- One ascending list is left. -/
theorem Blocks.sorted (h : Blocks cmp xs ss) (hl : ss.length ≤ 1) :
    Sorted cmp xs ss.flatten := by
  refine ⟨h.keeps, ?_⟩
  match ss, hl with
  | [], _ => exact .nil
  | [zs], _ =>
    rw [List.flatten_singleton]
    exact h.ascend zs List.mem_cons_self

end

section

variable {cmp : α → α → Ordering} [Std.TransCmp cmp] {bad : ε → Prop}
  {test before : α → α → Except ε Bool} {x : α} {xs ys : List α}

theorem isLE_of_not_lt {a b : α} (h : ¬(cmp a b == .lt) = true) : (cmp b a).isLE = true := by
  have hba : cmp b a = (cmp a b).swap := Std.OrientedCmp.eq_swap
  cases hab : cmp a b <;> simp_all

/-- Lists that ascend are merged. Of two that are equal the first list's comes first. -/
theorem merge_gives (ht : ∀ x ∈ xs, ∀ y ∈ ys, Gives bad (· = (cmp y x == .lt)) (test x y))
    (hx : Ascends cmp xs) (hy : Ascends cmp ys) :
    Gives bad (Sorted cmp (xs ++ ys)) (merge test xs ys) := by
  induction xs, ys using merge.induct with
  | case1 ys =>
    rw [merge]
    exact ⟨.refl .., hy⟩
  | case2 xs hn =>
    rw [merge]
    · rw [List.append_nil]
      exact ⟨.refl .., hx⟩
    · exact hn
  | case3 x xs y ys ihy ihx =>
    have hx' := List.pairwise_cons.mp hx
    have hy' := List.pairwise_cons.mp hy
    rw [merge]
    refine (ht x List.mem_cons_self y List.mem_cons_self).bind fun b hb => ?_
    subst hb
    split
    · rename_i hyx
      have hyx : cmp y x = .lt := eq_of_beq hyx
      have hlt : ∀ z ∈ x :: xs, cmp y z = .lt :=
        List.forall_mem_cons.mpr ⟨hyx, fun z hz => Std.TransCmp.lt_of_lt_of_isLE hyx (hx'.1 z hz)⟩
      have hle : ∀ z ∈ x :: xs ++ ys, (cmp y z).isLE = true :=
        List.forall_mem_append.mpr ⟨fun z hz => by rw [hlt z hz]; rfl, hy'.1⟩
      exact (ihy (fun a ha b hb => ht a ha b (List.mem_cons_of_mem y hb)) hx hy'.2).bind
        fun zs hz => (Keeps.move hlt ys).sorted (hz.cons hle)
    · rename_i hyx
      have hxy : (cmp x y).isLE = true := isLE_of_not_lt hyx
      have hle : ∀ z ∈ xs ++ y :: ys, (cmp x z).isLE = true :=
        List.forall_mem_append.mpr ⟨hx'.1, List.forall_mem_cons.mpr
          ⟨hxy, fun z hz => Std.TransCmp.isLE_trans hxy (hy'.1 z hz)⟩⟩
      exact (ihx (fun a ha => ht a (List.mem_cons_of_mem x ha)) hx'.2 hy).bind fun zs hz =>
        hz.cons hle

/-- What is sorted the other way round is sorted from the back. -/
theorem Sorted.of_reverse (h : Sorted (fun a b => cmp b a) xs.reverse ys) :
    Sorted cmp xs ys.reverse := by
  refine ⟨⟨(List.reverse_perm _).trans (h.perm.trans (List.reverse_perm _)), fun a => ?_⟩,
    List.pairwise_reverse.mpr h.ascends⟩
  have hties := congrArg List.reverse (h.ties a)
  rw [← List.filter_reverse, ← List.filter_reverse, List.reverse_reverse] at hties
  have hcomm (b : α) : cmp b a = .eq ↔ cmp a b = .eq := Std.OrientedCmp.eq_comm
  simpa only [hcomm] using hties

/-- Lists that ascend may be merged from the back. -/
theorem merge_reverse_gives
    (ht : ∀ x ∈ xs, ∀ y ∈ ys, Gives bad (· = (cmp y x == .lt)) (before y x))
    (hx : Ascends cmp xs) (hy : Ascends cmp ys) :
    Gives bad (fun zs => Sorted cmp (xs ++ ys) zs.reverse) (merge before ys.reverse xs.reverse) := by
  have : Std.TransCmp fun a b => cmp b a := .opposite
  have hm : Gives bad (Sorted (fun a b => cmp b a) (ys.reverse ++ xs.reverse))
      (merge before ys.reverse xs.reverse) :=
    merge_gives
      (fun y hy x hx => ht x (List.mem_reverse.mp hx) y (List.mem_reverse.mp hy))
      (List.pairwise_reverse.mpr hy) (List.pairwise_reverse.mpr hx)
  refine hm.mono fun zs hz => ?_
  rw [← List.reverse_append] at hz
  exact hz.of_reverse

/-- In a descending list an element takes its place behind those that it comes before. -/
theorem place_gives (ht : ∀ y ∈ ys, Gives bad (· = (cmp x y == .lt)) (before x y))
    (hy : Ascends cmp ys.reverse) :
    Gives bad (fun zs => Sorted cmp (ys.reverse ++ [x]) zs.reverse) (place before x ys) := by
  induction ys with
  | nil => exact (Sorted.nil cmp).concat nofun
  | cons y ys ih =>
    rw [List.reverse_cons] at hy
    obtain ⟨hys, -, hle⟩ := List.pairwise_append.mp hy
    have hle (z : α) (hz : z ∈ ys.reverse) : (cmp z y).isLE = true := hle z hz y List.mem_cons_self
    rw [place]
    refine (ht y List.mem_cons_self).bind fun b hb => ?_
    subst hb
    split
    · rename_i hxy
      have hxy : cmp x y = .lt := eq_of_beq hxy
      have hall : ∀ z ∈ ys.reverse ++ [x], (cmp z y).isLE = true :=
        List.forall_mem_append.mpr ⟨hle, by simp [hxy]⟩
      refine (ih (fun z hz => ht z (List.mem_cons_of_mem y hz)) hys).bind fun zs hz => ?_
      have hk : Keeps cmp (ys.reverse ++ [y] ++ [x]) (ys.reverse ++ [x] ++ [y]) := by
        rw [List.append_assoc, List.append_assoc]
        exact (Keeps.refl cmp _).append (.move (by simpa using hxy) [])
      change Sorted cmp _ (y :: zs).reverse
      simp only [List.reverse_cons]
      exact hk.sorted (hz.concat hall)
    · rename_i hxy
      have hyx : (cmp y x).isLE = true := isLE_of_not_lt hxy
      have hall : ∀ z ∈ ys.reverse ++ [y], (cmp z x).isLE = true :=
        List.forall_mem_append.mpr
          ⟨fun z hz => Std.TransCmp.isLE_trans (hle z hz) hyx, by simp [hyx]⟩
      change Sorted cmp _ (x :: y :: ys).reverse
      simp only [List.reverse_cons]
      exact Sorted.concat ⟨.refl cmp _, hy⟩ hall

theorem insert_gives (ht : ∀ y ∈ ys, Gives bad (· = (cmp x y == .lt)) (before x y))
    (hy : Ascends cmp ys.reverse) :
    Gives bad (fun zs => Sorted cmp (ys.reverse ++ [x]) zs.reverse) (insert before ys x) := by
  rw [insert]
  cases hl : ys.getLast? with
  | none =>
    obtain rfl := List.getLast?_eq_none_iff.mp hl
    exact (Sorted.nil cmp).concat nofun
  | some least =>
    obtain ⟨zs, rfl⟩ := List.getLast?_eq_some_iff.mp hl
    refine (ht least (by simp)).bind fun b hb => ?_
    subst hb
    split
    · rename_i hlt
      have hlt : cmp x least = .lt := eq_of_beq hlt
      have hall (z : α) (hz : z ∈ (zs ++ [least]).reverse) : cmp x z = .lt := by
        rw [List.reverse_concat] at hy hz
        rcases List.mem_cons.mp hz with rfl | hz
        · exact hlt
        · exact Std.TransCmp.lt_of_lt_of_isLE hlt ((List.pairwise_cons.mp hy).1 z hz)
      have hk := Keeps.move hall []
      rw [List.append_nil, ← List.reverse_concat] at hk
      refine ⟨hk, ?_⟩
      rw [List.reverse_concat]
      exact List.pairwise_cons.mpr ⟨fun z hz => by rw [hall z hz]; rfl, hy⟩
    · exact place_gives ht hy

variable {S : α → Prop} {ss : List (List α)}

section

variable (hb : ∀ x y, S x → S y → Gives bad (· = (cmp x y == .lt)) (before x y))

include hb in
/-- The elements of `xs` are in the descending list already. -/
theorem foldlM_insert_gives {desc : List α} (hs : Sorted cmp xs desc.reverse)
    (hx : ∀ x ∈ xs ++ ys, S x) :
    Gives bad (fun zs => Sorted cmp (xs ++ ys) zs.reverse) (ys.foldlM (insert before) desc) := by
  induction ys generalizing xs desc with
  | nil => rwa [List.append_nil]
  | cons y ys ih =>
    have hdesc (z : α) (hz : z ∈ desc) : S z :=
      hs.toKeeps.all (fun x h => hx x (List.mem_append_left _ h)) z (List.mem_reverse.mpr hz)
    rw [List.foldlM_cons]
    refine (insert_gives (fun z hz => hb y z (hx y (by simp)) (hdesc z hz)) hs.ascends).bind
      fun zs hz => ?_
    rw [List.append_cons] at hx ⊢
    exact ih ((hs.toKeeps.append (.refl cmp [y])).sorted hz) hx

include hb in
theorem insertion_gives (hx : ∀ x ∈ xs, S x) : Gives bad (Sorted cmp xs) (insertion before xs) := by
  have h : Sorted cmp [] ([] : List α).reverse := .nil cmp
  exact (foldlM_insert_gives hb h hx).bind fun _ hz => hz

theorem flatten_runs (xs : List α) : (runs xs).flatten = xs := by
  induction xs using runs.induct with
  | case1 => rw [runs, List.flatten_nil]
  | case2 x xs ih => rw [runs, List.flatten_cons, ih, List.cons_append, List.take_append_drop]

include hb in
theorem mapM_insertion_gives (hx : ∀ x ∈ ss.flatten, S x) :
    Gives bad (Blocks cmp ss.flatten) (ss.mapM (insertion before)) := by
  induction ss with
  | nil => exact ⟨.refl cmp [], nofun⟩
  | cons s ss ih =>
    have hx' := List.forall_mem_append.mp hx
    rw [List.mapM_cons]
    refine (insertion_gives hb hx'.1).bind fun zs hz => ?_
    refine (ih hx'.2).bind fun zss hzs => ?_
    exact ⟨hz.toKeeps.append hzs.keeps, List.forall_mem_cons.mpr ⟨hz.ascends, hzs.ascend⟩⟩

include hb in
/-- A round leaves half as many lists. -/
theorem pairs_gives (hx : ∀ x ∈ ss.flatten, S x) (hs : ∀ s ∈ ss, Ascends cmp s) :
    Gives bad (fun zss => Blocks cmp ss.flatten zss ∧ zss.length = (ss.length + 1) / 2)
      (pairs before ss) := by
  induction ss using pairs.induct with
  | case1 s s' ss ih =>
    obtain ⟨hs₁, hs₂, hs⟩ : Ascends cmp s ∧ Ascends cmp s' ∧ ∀ r ∈ ss, Ascends cmp r := by
      simpa using hs
    obtain ⟨hx₁, hx⟩ := List.forall_mem_append.mp hx
    obtain ⟨hx₂, hx⟩ := List.forall_mem_append.mp hx
    rw [pairs]
    refine (merge_gives (fun x hx y hy => hb y x (hx₂ y hy) (hx₁ x hx)) hs₁ hs₂).bind fun zs hz => ?_
    refine (ih hx hs).bind fun zss ⟨hzs, hl⟩ => ⟨⟨?_, ?_⟩, ?_⟩
    · rw [List.flatten_cons, List.flatten_cons, ← List.append_assoc]
      exact hz.toKeeps.append hzs.keeps
    · exact List.forall_mem_cons.mpr ⟨hz.ascends, hzs.ascend⟩
    · simp only [List.length_cons, hl]
      omega
  | case2 ss hn =>
    rw [pairs]
    · refine ⟨⟨.refl cmp _, hs⟩, ?_⟩
      match ss, hn with
      | [], _ => simp
      | [_], _ => simp
      | s :: s' :: ss, hn => exact (hn s s' ss rfl).elim
    · exact hn

include hb in
theorem rounds_gives {n : Nat} (hx : ∀ x ∈ ss.flatten, S x) (hs : ∀ s ∈ ss, Ascends cmp s)
    (hn : ss.length ≤ n + 1) :
    Gives bad (fun zss => Blocks cmp ss.flatten zss ∧ zss.length ≤ 1) (rounds before n ss) := by
  induction n generalizing ss with
  | zero => exact ⟨⟨.refl cmp _, hs⟩, hn⟩
  | succ n ih =>
    rw [rounds]
    refine (pairs_gives hb hx hs).bind fun zss ⟨hz, hl⟩ => ?_
    refine (ih (hz.keeps.all hx) hz.ascend (by omega)).mono fun _ ⟨hr, hl⟩ => ?_
    exact ⟨⟨hz.keeps.trans hr.keeps, hr.ascend⟩, hl⟩

include hb in
theorem half_gives (hx : ∀ x ∈ xs, S x) : Gives bad (Sorted cmp xs) (half before xs) := by
  have hruns := flatten_runs xs
  rw [half]
  refine (mapM_insertion_gives hb (hruns.symm ▸ hx)).bind fun ss hs => ?_
  rw [hruns] at hs
  refine (rounds_gives hb (hs.keeps.all hx) hs.ascend (Nat.le_succ _)).bind fun zss ⟨hz, hl⟩ => ?_
  exact Blocks.sorted ⟨hs.keeps.trans hz.keeps, hz.ascend⟩ hl

include hb in
/-- A sort gives the list in ascending order, with those that compare equal in the order in which
they stood, unless a comparison fails. -/
theorem sort_gives (hx : ∀ x ∈ xs, S x) : Gives bad (Sorted cmp xs) (sort before xs) := by
  have hsplit : xs.take ((xs.length + 1) / 2) ++ xs.drop ((xs.length + 1) / 2) = xs :=
    List.take_append_drop ..
  obtain ⟨hx₁, hx₂⟩ := List.forall_mem_append.mp (hsplit.symm ▸ hx)
  rw [sort]
  refine (half_gives hb hx₁).bind fun first hf => ?_
  refine (half_gives hb hx₂).bind fun second hs => ?_
  have ht : ∀ x ∈ first, ∀ y ∈ second, Gives bad (· = (cmp y x == .lt)) (before y x) :=
    fun x h y h' => hb y x (hs.toKeeps.all hx₂ y h') (hf.toKeeps.all hx₁ x h)
  have hk : Keeps cmp xs (first ++ second) := hsplit ▸ hf.toKeeps.append hs.toKeeps
  split
  · exact (merge_gives ht hf.ascends hs.ascends).mono fun _ hz => hk.sorted hz
  · exact (merge_reverse_gives ht hf.ascends hs.ascends).bind fun _ hz => hk.sorted hz

end

end

end Backlog.Sort

namespace Backlog.Ticket

/-- The faults of tickets in the list that do not compare. -/
def Unordered (ks : List Ticket) (f : Fault) : Prop :=
  ∃ a ∈ ks, ∃ b ∈ ks, ¬a.Compares b ∧ f = .unstamped a.id b.id

theorem before_gives {ks : List Ticket} {a b : Ticket} (ha : a ∈ ks) (hb : b ∈ ks) :
    Sort.Gives (Unordered ks) (· = (a.compareKey b == .lt)) (a.before b) := by
  by_cases h : a.Compares b
  · rw [before, order_of_compares h]
    rfl
  · rw [before, order_of_not_compares h]
    exact ⟨a, ha, b, hb, h, rfl⟩

/-- Tickets are sorted by run order, and those that are equal in it stay as they stood. A sort that
fails names two that do not compare, so among tickets that compare none fails. -/
theorem sort_before (ks : List Ticket) :
    Sort.Gives (Unordered ks) (Sort.Sorted compareKey ks) (Sort.sort before ks) ∧
      ((∀ a ∈ ks, ∀ b ∈ ks, a.Compares b) → ∃ sorted, Sort.sort before ks = .ok sorted) := by
  have h : Sort.Gives (Unordered ks) (Sort.Sorted compareKey ks) (Sort.sort before ks) :=
    Sort.sort_gives (fun _ _ ha hb => before_gives ha hb) fun _ hk => hk
  refine ⟨h, fun hc => ?_⟩
  cases hs : Sort.sort before ks with
  | ok sorted => exact ⟨sorted, rfl⟩
  | error f =>
    rw [hs] at h
    obtain ⟨a, ha, b, hb, hn, -⟩ := h
    exact absurd (hc a ha b hb) hn

end Backlog.Ticket
