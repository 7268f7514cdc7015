import Backlog.Proofs.Comparison
import Backlog.Proofs.QueueIndex
import Mathlib.Tactic.SplitIfs

/-!
# Run order

Among tickets that have stamps, the order of a queue is the order by priority, age, stamp and
the bytes of the id. A queue keeps its tickets in this order as long as they keep their places.
-/

namespace Backlog

/-- The bytes of a string. -/
def bytes (s : String) : List UInt8 := s.toByteArray.data.toList

theorem bytes_eq (s : String) : bytes s = s.toList.flatMap String.utf8EncodeChar := by
  rw [bytes, ← String.utf8Encode_toList, List.utf8Encode, List.data_toByteArray]

/-- A lower character has lower bytes. -/
theorem encode_lt {c d : Char} (h : c < d) (xs ys : List UInt8) :
    String.utf8EncodeChar c ++ xs < String.utf8EncodeChar d ++ ys := by
  have hv : c.val.toNat < d.val.toNat := h
  have hd : d.val.toNat < 0x110000 := by
    rcases d.valid with hd | hd
    · exact Nat.lt_trans hd (by decide)
    · exact hd.2
  simp only [String.utf8EncodeChar]
  split_ifs <;>
    simp (disch := omega) only [List.cons_append, List.nil_append, List.cons_lt_cons_iff,
      UInt8.lt_iff_toNat_lt, ← UInt8.toNat_inj, UInt8.toNat_ofNat', Nat.mod_eq_of_lt] <;> omega

/-- Strings ascend as their bytes do. -/
theorem bytes_lt {s t : String} (h : s < t) : bytes s < bytes t := by
  have h : s.toList < t.toList := h
  rw [bytes_eq, bytes_eq]
  generalize s.toList = l at h
  generalize t.toList = k at h
  induction h with
  | nil =>
    rename_i c k
    rw [List.flatMap_nil, List.flatMap_cons]
    cases hc : String.utf8EncodeChar c with
    | nil => exact absurd hc String.utf8EncodeChar_ne_nil
    | cons b bs => exact List.nil_lt_cons ..
  | rel h => exact encode_lt h _ _
  | cons _ ih => exact List.append_left_lt ih

namespace Ticket

variable {a b c a' b' : Ticket}

/-- The ticket comes before the other: it has the higher priority, or else is older, or else has
the lower stamp, or else the lower id, byte by byte. -/
def Precedes (a b : Ticket) : Prop :=
  b.priority < a.priority ∨ a.priority = b.priority ∧
    (a.created < b.created ∨ a.created = b.created ∧
      ∃ i k, a.stamp = some i ∧ b.stamp = some k ∧ (i < k ∨ i = k ∧ bytes a.id < bytes b.id))

theorem Precedes.trans (h : a.Precedes b) (h' : b.Precedes c) : a.Precedes c := by
  simp only [Precedes] at *
  rcases h with h | ⟨hp, h | ⟨hc, i, k, hi, hk, h⟩⟩
  · left
    omega
  · rcases h' with h' | ⟨hp', h' | ⟨hc', -⟩⟩
    · left
      omega
    · exact .inr ⟨by omega, .inl (by omega)⟩
    · exact .inr ⟨by omega, .inl (by omega)⟩
  · rcases h' with h' | ⟨hp', h' | ⟨hc', j, l, hj, hl, h'⟩⟩
    · left
      omega
    · exact .inr ⟨by omega, .inl (by omega)⟩
    · obtain rfl : k = j := Option.some.inj (hk.symm.trans hj)
      refine .inr ⟨by omega, .inr ⟨by omega, i, l, hi, hl, ?_⟩⟩
      rcases h with h | ⟨rfl, h⟩
      · left
        omega
      · rcases h' with h' | ⟨rfl, h'⟩
        · exact .inl h'
        · exact .inr ⟨rfl, List.lt_trans h h'⟩

/-- No ticket comes before itself, so that tickets in run order ascend strictly. -/
theorem not_precedes_self (k : Ticket) : ¬k.Precedes k := by
  rintro (h | ⟨-, h | ⟨-, i, j, hi, hj, h⟩⟩)
  · omega
  · omega
  · obtain rfl : i = j := Option.some.inj (hi.symm.trans hj)
    rcases h with h | ⟨-, h⟩
    · omega
    · exact List.lt_irrefl _ h

/-- The order of a queue among tickets that have stamps. -/
theorem queueOrder_stamped {i k : Nat} (hi : a.stamp = some i) (hk : b.stamp = some k) :
    a.queueOrder b = (compare b.priority a.priority).then
      ((compare a.created b.created).then ((compare i k).then (compare a.id b.id))) := by
  have hc : a.Compares b := compares_of_stamped (by rw [hi]; rfl) (by rw [hk]; rfl)
  rw [queueOrder_of_compares hc]
  simp only [comparePlace, compareKey, seniority, compareLex, compareOn, hi, hk,
    Ordering.then_assoc]
  rfl

/-- Among tickets that have stamps, what is lower in the order of a queue comes before. -/
theorem precedes_of_lt (ha : a.stamp.isSome = true) (hb : b.stamp.isSome = true)
    (h : a.queueOrder b = .lt) : a.Precedes b := by
  obtain ⟨i, hi⟩ := Option.isSome_iff_exists.mp ha
  obtain ⟨k, hk⟩ := Option.isSome_iff_exists.mp hb
  simp only [queueOrder_stamped hi hk, Ordering.then_eq_lt, Int.compare_eq_lt, Int.compare_eq_eq,
    Nat.compare_eq_lt, Nat.compare_eq_eq] at h
  rcases h with h | ⟨hp, h | ⟨hc, h | ⟨hs, h⟩⟩⟩
  · exact .inl h
  · exact .inr ⟨hp.symm, .inl h⟩
  · exact .inr ⟨hp.symm, .inr ⟨hc, i, k, hi, hk, .inl h⟩⟩
  · exact .inr ⟨hp.symm, .inr ⟨hc, i, k, hi, hk, .inr
      ⟨hs, bytes_lt (compareOfLessAndEq_eq_lt.mp h)⟩⟩⟩

theorem precedes_of_gt (ha : a.stamp.isSome = true) (hb : b.stamp.isSome = true)
    (h : a.queueOrder b = .gt) : b.Precedes a := by
  apply precedes_of_lt hb ha
  have hc := compares_of_stamped ha hb
  rw [queueOrder_of_compares hc] at h
  rw [queueOrder_of_compares hc.symm]
  exact Std.OrientedCmp.lt_of_gt h

/-- What decides where the ticket stands in a queue. -/
def place (k : Ticket) : Int × Int × Option Nat × String := (k.priority, k.created, k.stamp, k.id)

theorem precedes_congr (ha : a'.place = a.place) (hb : b'.place = b.place) :
    a'.Precedes b' ↔ a.Precedes b := by
  simp only [place, Prod.mk.injEq] at ha hb
  obtain ⟨hap, hac, has, hai⟩ := ha
  obtain ⟨hbp, hbc, hbs, hbi⟩ := hb
  simp only [Precedes, hap, hac, has, hai, hbp, hbc, hbs, hbi]

theorem stamp_of_place (h : a.place = b.place) : a.stamp = b.stamp :=
  congrArg (fun p => p.2.2.1) h

theorem id_of_place (h : a.place = b.place) : a.id = b.id := congrArg (fun p => p.2.2.2) h

/-- Tickets with stamps that compare equal in a queue have one place. -/
theorem place_of_eq (ha : a.stamp.isSome = true) (hb : b.stamp.isSome = true)
    (h : a.queueOrder b = .eq) : a.place = b.place := by
  obtain ⟨i, hi⟩ := Option.isSome_iff_exists.mp ha
  obtain ⟨k, hk⟩ := Option.isSome_iff_exists.mp hb
  simp only [queueOrder_stamped hi hk, Ordering.then_eq_eq, Int.compare_eq_eq,
    Nat.compare_eq_eq] at h
  obtain ⟨hp, hc, rfl, hid⟩ := h
  rw [place, place, hp, hc, hi, hk, Std.LawfulEqCmp.eq_of_compare hid]

theorem queueOrder_eq_comm (ha : a.stamp.isSome = true) (hb : b.stamp.isSome = true) :
    a.queueOrder b = .eq ↔ b.queueOrder a = .eq := by
  have hc := compares_of_stamped ha hb
  rw [queueOrder_of_compares hc, queueOrder_of_compares hc.symm]
  exact Std.OrientedCmp.eq_comm

/-- Tickets with stamps are in run order as a queue compares them. -/
theorem queueOrder_eq_lt (ha : a.stamp.isSome = true) (hb : b.stamp.isSome = true) :
    a.queueOrder b = .lt ↔ a.Precedes b := by
  refine ⟨precedes_of_lt ha hb, fun h => ?_⟩
  cases hab : a.queueOrder b with
  | lt => rfl
  | gt => exact absurd (h.trans (precedes_of_gt ha hb hab)) (not_precedes_self a)
  | eq => exact absurd ((precedes_congr (place_of_eq ha hb hab) rfl).mp h) (not_precedes_self b)

end Ticket

namespace Queue

/-- The queued tickets have stamps and stand in run order. -/
structure Ordered (q : Queue) (ticket : Nat → Ticket) : Prop where
  stamped : ∀ t ∈ q.order, (ticket t).stamp.isSome = true
  sorted : q.order.Pairwise fun t u => (ticket t).Precedes (ticket u)

variable {q q' : Queue} {ticket ticket' : Nat → Ticket} {t : Nat}

theorem ordered_empty (ticket : Nat → Ticket) : ({} : Queue).Ordered ticket := ⟨nofun, .nil⟩

/-- Only the places of the queued tickets matter. -/
theorem Ordered.congr (h : q.Ordered ticket)
    (hp : ∀ t ∈ q.order, (ticket' t).place = (ticket t).place) : q.Ordered ticket' where
  stamped t ht := by
    rw [Ticket.stamp_of_place (hp t ht)]
    exact h.stamped t ht
  sorted := h.sorted.imp_of_mem fun ht hu => (Ticket.precedes_congr (hp _ ht) (hp _ hu)).mpr

theorem Ordered.insert (h : q.Ordered ticket) (ht : (ticket t).stamp.isSome = true) :
    (q.insert ticket t).Ordered ticket where
  stamped u hu := by
    rcases mem_insertOrdered hu with rfl | hu
    · exact ht
    · exact h.stamped u hu
  sorted := pairwise_insertOrdered (fun h h' => h.trans h')
    (fun u hu => Ticket.precedes_of_lt ht (h.stamped u hu))
    (fun u hu => Ticket.precedes_of_gt ht (h.stamped u hu)) h.sorted

theorem Ordered.sublist (h : q.Ordered ticket) (hs : q'.order.Sublist q.order) :
    q'.Ordered ticket where
  stamped t ht := h.stamped t (hs.subset ht)
  sorted := h.sorted.sublist hs

end Queue

end Backlog
