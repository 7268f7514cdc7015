import Backlog.Ticket
import Mathlib.Data.Set.Pairwise.Basic
import Mathlib.Order.Defs.Unbundled

/-!
# The comparison of tickets

Run order asks for the stamps of two tickets only if neither is senior to the other, and then it
may have no answer. Where it answers it agrees with a comparison that always does, in which no
stamp is the lowest. What is known of that one is known of run order.
-/

namespace Backlog

section

variable {α : Type} {cmp : α → α → Ordering} [Std.TransCmp cmp] {a b c : α}

/-- What lies between two that are equal is equal to both. -/
theorem eq_of_isLE_of_eq (hab : (cmp a b).isLE = true) (hbc : (cmp b c).isLE = true) (h : cmp a c = .eq) :
    cmp a b = .eq ∧ cmp b c = .eq := by
  have hab : cmp a b = .eq := by
    refine (Ordering.isLE_iff_eq_lt_or_eq_eq.mp hab).resolve_left fun hlt => ?_
    rw [Std.TransCmp.lt_of_lt_of_isLE hlt hbc] at h
    cases h
  exact ⟨hab, (Std.TransCmp.congr_left hab).symm.trans h⟩

/-- Neither comes first exactly if they are equal. -/
theorem incomparable_iff : ¬cmp a b = .lt ∧ ¬cmp b a = .lt ↔ cmp a b = .eq := by
  have hgt : cmp a b = .gt ↔ cmp b a = .lt := Std.OrientedCmp.gt_iff_lt
  rw [← hgt]
  cases cmp a b <;> simp

/-- What a comparison puts first is a strict order in which ties are transitive. -/
theorem strictWeakOrder (ks : Set α) : IsStrictWeakOrder ks fun a b => cmp a b = .lt where
  irrefl a h := by
    have he : cmp a a = .eq := Std.ReflCmp.compare_self
    rw [he] at h
    cases h
  trans _ _ _ := Std.TransCmp.lt_trans
  incomp_trans a b c hab hbc := by
    rw [incomparable_iff] at hab hbc ⊢
    exact Std.TransCmp.eq_trans hab hbc

/-- Without ties it is total. -/
theorem strictTotalOrder {ks : Set α} (h : ks.Pairwise fun a b => cmp a b ≠ .eq) :
    IsStrictTotalOrder ks fun a b => cmp a b = .lt where
  irrefl := (strictWeakOrder ks).irrefl
  trans := (strictWeakOrder ks).trans
  trichotomous a b hab hba := by
    by_contra hne
    exact h a.property b.property (fun he => hne (Subtype.ext he)) (incomparable_iff.mp ⟨hab, hba⟩)

end

namespace Ticket

/-- Higher priority first, then older. -/
def seniority : Ticket → Ticket → Ordering :=
  compareLex (fun a b => compareOn priority b a) (compareOn created)

/-- By seniority and then by stamp, of which none is the lowest. -/
def compareKey : Ticket → Ticket → Ordering := compareLex seniority (compareOn stamp)

/-- By key and then by id. -/
def comparePlace : Ticket → Ticket → Ordering := compareLex compareKey (compareOn id)

instance : Std.TransCmp seniority := inferInstanceAs (Std.TransCmp (compareLex _ _))

instance : Std.TransCmp compareKey := inferInstanceAs (Std.TransCmp (compareLex _ _))

instance : Std.TransCmp comparePlace := inferInstanceAs (Std.TransCmp (compareLex _ _))

/-- One of the tickets is senior to the other, or both have stamps. -/
def Compares (a b : Ticket) : Prop :=
  a.seniority b = .eq → a.stamp.isSome = true ∧ b.stamp.isSome = true

variable {a b c : Ticket} {x y : Ordering} {f : Fault}

theorem seniority_eq : a.seniority b = .eq ↔ a.priority = b.priority ∧ a.created = b.created := by
  simp only [seniority, compareLex, compareOn, Ordering.then_eq_eq, Int.compare_eq_eq,
    eq_comm (a := b.priority)]

theorem seniority_le (h : (a.compareKey b).isLE = true) : (a.seniority b).isLE = true :=
  Ordering.isLE_left_of_isLE_then h

/-- Tickets that are next to each other in a queue have one id. -/
theorem id_of_comparePlace (h : a.comparePlace b = .eq) : a.id = b.id :=
  Std.LawfulEqCmp.eq_of_compare (Ordering.then_eq_eq.mp h).2

theorem compares_of_stamped (ha : a.stamp.isSome = true) (hb : b.stamp.isSome = true) :
    a.Compares b := fun _ => ⟨ha, hb⟩

theorem Compares.symm (h : a.Compares b) : b.Compares a :=
  fun he => (h (Std.OrientedCmp.eq_symm he)).symm

/-- If neither end is senior to the other, then nothing in between is. -/
theorem Compares.trans (hab : a.Compares b) (hbc : b.Compares c)
    (h : (a.compareKey b).isLE = true) (h' : (b.compareKey c).isLE = true) : a.Compares c := by
  intro he
  obtain ⟨hab', hbc'⟩ := eq_of_isLE_of_eq (seniority_le h) (seniority_le h') he
  exact ⟨(hab hab').1, (hbc hbc').2⟩

theorem order_of_compares (h : a.Compares b) : a.order b = .ok (a.compareKey b) := by
  simp only [Compares, seniority_eq] at h
  simp only [order, compareKey, seniority, compareLex, compareOn]
  by_cases hp : a.priority = b.priority
  · rw [if_neg (not_not_intro hp), Int.compare_eq_eq.mpr hp.symm]
    by_cases hc : a.created = b.created
    · rw [if_neg (not_not_intro hc), Int.compare_eq_eq.mpr hc]
      obtain ⟨ha, hb⟩ := h ⟨hp, hc⟩
      obtain ⟨i, hi⟩ := Option.isSome_iff_exists.mp ha
      obtain ⟨k, hk⟩ := Option.isSome_iff_exists.mp hb
      rw [hi, hk]
      rfl
    · rw [if_pos hc]
      cases hac : compare a.created b.created with
      | eq => exact absurd (Int.compare_eq_eq.mp hac) hc
      | lt => rfl
      | gt => rfl
  · rw [if_pos hp]
    cases hpb : compare b.priority a.priority with
    | eq => exact absurd (Int.compare_eq_eq.mp hpb).symm hp
    | lt => rfl
    | gt => rfl

theorem order_of_not_compares (h : ¬a.Compares b) : a.order b = .error (.unstamped a.id b.id) := by
  simp only [Compares, seniority_eq, not_forall] at h
  obtain ⟨⟨hp, hc⟩, hs⟩ := h
  rw [order, if_neg (not_not_intro hp), if_neg (not_not_intro hc)]
  cases ha : a.stamp with
  | none => rfl
  | some i =>
    cases hb : b.stamp with
    | none => rfl
    | some k => exact absurd ⟨by rw [ha]; rfl, by rw [hb]; rfl⟩ hs

theorem order_eq_ok : a.order b = .ok x ↔ a.Compares b ∧ a.compareKey b = x := by
  by_cases h : a.Compares b
  · rw [order_of_compares h, Except.ok.injEq, and_iff_right h]
  · simp [order_of_not_compares h, h]

theorem order_eq_error : a.order b = .error f ↔ ¬a.Compares b ∧ .unstamped a.id b.id = f := by
  by_cases h : a.Compares b
  · simp [order_of_compares h, h]
  · rw [order_of_not_compares h, Except.error.injEq, and_iff_right h]

theorem before_eq_true : a.before b = .ok true ↔ a.Compares b ∧ a.compareKey b = .lt := by
  by_cases h : a.Compares b
  · simp [before, order_of_compares h, Except.map, h]
  · simp [before, order_of_not_compares h, Except.map, h]

/-- A queue goes by key and by id wherever it can compare. -/
theorem queueOrder_of_compares (h : a.Compares b) : a.queueOrder b = a.comparePlace b := by
  simp only [queueOrder, order_of_compares h, comparePlace, compareLex]
  cases a.compareKey b <;> rfl

/-- Run order is a total preorder as far as it goes. It has no answer exactly if two tickets have
one priority and one age and one of them lacks a stamp, whichever of the two is asked first. Else
the answer turns round with the tickets, and what it says of two pairs in a row it says of the
ends. So it orders tickets that have stamps strictly, up to ties, and a queue orders those of
distinct ids without any. -/
theorem order_total_preorder :
    (∀ a b : Ticket, (∃ f, a.order b = .error f) ↔
      a.priority = b.priority ∧ a.created = b.created ∧ (a.stamp = none ∨ b.stamp = none)) ∧
    (∀ (a b : Ticket) f, a.order b = .error f → f.kind = .logic ∧
      f = .unstamped a.id b.id ∧ b.order a = .error (.unstamped b.id a.id)) ∧
    (∀ (a b : Ticket) x, a.order b = .ok x → b.order a = .ok x.swap) ∧
    (∀ (a b c : Ticket) x y, a.order b = .ok x → x.isLE = true → b.order c = .ok y →
      y.isLE = true → ∃ z, a.order c = .ok z ∧ z.isLE = true ∧ (z = .eq → x = .eq ∧ y = .eq)) ∧
    ∀ ks : Set Ticket, (∀ k ∈ ks, k.stamp.isSome = true) →
      (∀ a ∈ ks, ∀ b ∈ ks, ∃ r, a.before b = .ok r) ∧
      IsStrictWeakOrder ks (fun a b => a.val.before b = .ok true) ∧
      (ks.Pairwise (fun a b => a.id ≠ b.id) →
        IsStrictTotalOrder ks fun a b => a.val.queueOrder b = .lt) := by
  refine ⟨fun a b => ?_, fun a b f h => ?_, fun a b x h => ?_, fun a b c x y hab hx hbc hy => ?_,
    fun ks stamped => ?_⟩
  · simp only [order_eq_error, exists_and_left, exists_eq', and_true, Compares, seniority_eq]
    cases a.stamp <;> cases b.stamp <;> simp
  · obtain ⟨hn, rfl⟩ := order_eq_error.mp h
    exact ⟨rfl, rfl, order_of_not_compares fun hc => hn hc.symm⟩
  · obtain ⟨hc, rfl⟩ := order_eq_ok.mp h
    exact order_eq_ok.mpr ⟨hc.symm, Std.OrientedCmp.eq_swap⟩
  · obtain ⟨hcab, rfl⟩ := order_eq_ok.mp hab
    obtain ⟨hcbc, rfl⟩ := order_eq_ok.mp hbc
    exact ⟨_, order_of_compares (hcab.trans hcbc hx hy), Std.TransCmp.isLE_trans hx hy,
      eq_of_isLE_of_eq hx hy⟩
  have compares (a b : ks) : a.val.Compares b :=
    compares_of_stamped (stamped a a.property) (stamped b b.property)
  have before (a b : ks) : a.val.before b = .ok true ↔ a.val.compareKey b = .lt := by
    rw [before_eq_true, and_iff_right (compares a b)]
  have queueOrder (a b : ks) : a.val.queueOrder b = a.val.comparePlace b :=
    queueOrder_of_compares (compares a b)
  refine ⟨fun a ha b hb => ⟨_, by
    rw [Ticket.before, order_of_compares (compares ⟨a, ha⟩ ⟨b, hb⟩)]; rfl⟩, ?_, fun distinct => ?_⟩
  · simp only [before]
    exact strictWeakOrder ks
  · simp only [queueOrder]
    exact strictTotalOrder (distinct.imp fun _ _ hid he => hid (id_of_comparePlace he))

/-- A ticket without a stamp. -/
def urgent : Ticket := { id := "c", priority := 2 }

/-- Tickets that share a stamp. -/
def tied (id : String) : Ticket := { id, priority := 1, stamp := some 7 }

/-- The first comes before the others, which are tied. A queue keeps the two apart by their ids. -/
theorem order_total_preorder_tied :
    (∃ z, urgent.order (tied "b") = .ok z ∧ z.isLE = true) ∧
    (tied "b").order urgent = .ok .gt ∧
    (∃ f, urgent.order urgent = .error f) ∧
    IsStrictWeakOrder ({tied "a", tied "b"} : Set Ticket) (fun a b => a.val.before b = .ok true) ∧
    IsStrictTotalOrder ({tied "a", tied "b"} : Set Ticket) fun a b =>
      a.val.queueOrder b = .lt := by
  obtain ⟨unknown, -, swaps, trans, sets⟩ := order_total_preorder
  have hab : (tied "a").order (tied "b") = .ok .eq := by decide
  have hca : urgent.order (tied "a") = .ok .lt := by decide
  have hcb : urgent.order (tied "b") = .ok .lt := by decide
  obtain ⟨-, weak, total⟩ := sets {tied "a", tied "b"} (by rintro k (rfl | rfl) <;> rfl)
  obtain ⟨z, hz, hle, -⟩ := trans _ _ _ _ _ hca rfl hab rfl
  refine ⟨⟨z, hz, hle⟩, swaps _ _ _ hcb, (unknown _ _).mpr ⟨rfl, rfl, .inl rfl⟩, weak, total ?_⟩
  rintro a (rfl | rfl) b (rfl | rfl) hne
  · exact absurd rfl hne
  · exact fun h => by simp [tied] at h
  · exact fun h => by simp [tied] at h
  · exact absurd rfl hne

end Ticket

end Backlog
