import Backlog.Proofs.LifeCycle

/-!
# Groups

A manager keeps a group busy while it runs an attempt of one of its members, and no longer. It
begins no attempt of a member of a busy group, so that attempts of one group never overlap. No
promise of the client is needed: the group of a ticket never changes.
-/

namespace Backlog

theorem Ticket.group_of_lasting {a b : Ticket} (h : a.lasting = b.lasting) : a.group = b.group :=
  show a.lasting.group = b.lasting.group by rw [h]

/-- The busy groups are those of the tickets that somebody works on, each in one operation. -/
structure Served (busy : Names) (group : Nat → Option String) (works : Nat → Nat → Prop) : Prop where
  busy : ∀ g, busy.contains g = true ↔ ∃ a t, works a t ∧ group t = some g
  sole : ∀ a b t u g, works a t → works b u → group t = some g → group u = some g → a = b

theorem Names.contains_elim_insert (busy : Names) (group : Option String) (g : String) :
    (group.elim busy busy.insert).contains g = true ↔ group = some g ∨ busy.contains g = true := by
  cases group <;> simp [@eq_comm _ g]

theorem Names.contains_elim_erase (busy : Names) (group : Option String) (g : String) :
    (group.elim busy busy.erase).contains g = true ↔ group ≠ some g ∧ busy.contains g = true := by
  cases group <;> simp [@eq_comm _ g]

namespace Served

variable {busy : Names} {group group' : Nat → Option String} {works works' : Nat → Nat → Prop}
  {a t : Nat}

theorem idle (group : Nat → Option String) (hw : ∀ a t, ¬works a t) : Served .empty group works where
  busy g := by
    constructor
    · intro h
      cases h
    · rintro ⟨a, t, h, -⟩
      exact absurd h (hw a t)
  sole a b t u g h := absurd h (hw a t)

theorem congr (h : Served busy group works) (hg : ∀ a t, works a t → group' t = group t)
    (hw : ∀ a t, works' a t ↔ works a t) : Served busy group' works' where
  busy g := by
    rw [h.busy]
    constructor
    · rintro ⟨a, t, ha, ht⟩
      exact ⟨a, t, (hw a t).mpr ha, (hg a t ha).trans ht⟩
    · rintro ⟨a, t, ha, ht⟩
      have ha := (hw a t).mp ha
      exact ⟨a, t, ha, (hg a t ha).symm.trans ht⟩
  sole a b t u g ha hb ht hu := by
    have ha := (hw a t).mp ha
    have hb := (hw b u).mp hb
    exact h.sole a b t u g ha hb ((hg a t ha).symm.trans ht) ((hg b u hb).symm.trans hu)

/-- Operation `a` ends its work on a ticket. -/
theorem leave (h : Served busy group works) (ha : works a t) (only : ∀ u, works a u → u = t) :
    Served ((group t).elim busy busy.erase) group fun b u => b ≠ a ∧ works b u where
  busy g := by
    have other : (∃ b u, (b ≠ a ∧ works b u) ∧ group u = some g) ↔
        group t ≠ some g ∧ ∃ b u, works b u ∧ group u = some g := by
      constructor
      · rintro ⟨b, u, ⟨hne, hb⟩, hu⟩
        exact ⟨fun ht => hne (h.sole b a u t g hb ha hu ht), b, u, hb, hu⟩
      · rintro ⟨hne, b, u, hb, hu⟩
        refine ⟨b, u, ⟨?_, hb⟩, hu⟩
        rintro rfl
        rw [only u hb] at hu
        exact hne hu
    rw [other, ← h.busy, Names.contains_elim_erase]
  sole b c u v g hb hc := h.sole b c u v g hb.2 hc.2

/-- Operation `a` begins to work on a ticket whose group is not busy. -/
theorem enter (h : Served busy group works) (ha : ∀ u, ¬works a u)
    (free : ∀ g, group t = some g → busy.contains g = false) :
    Served ((group t).elim busy busy.insert) group fun b u =>
      b = a ∧ u = t ∨ b ≠ a ∧ works b u where
  busy g := by
    have other : (∃ b u, (b = a ∧ u = t ∨ b ≠ a ∧ works b u) ∧ group u = some g) ↔
        group t = some g ∨ ∃ b u, works b u ∧ group u = some g := by
      constructor
      · rintro ⟨b, u, ⟨-, rfl⟩ | ⟨-, hb⟩, hu⟩
        · exact .inl hu
        · exact .inr ⟨b, u, hb, hu⟩
      · rintro (ht | ⟨b, u, hb, hu⟩)
        · exact ⟨a, t, .inl ⟨rfl, rfl⟩, ht⟩
        · refine ⟨b, u, .inr ⟨?_, hb⟩, hu⟩
          rintro rfl
          exact ha u hb
    rw [other, ← h.busy, Names.contains_elim_insert]
  sole b c u v g hb hc hu hv := by
    -- an attempt of the group of `t` would have kept it busy
    have fresh (d x : Nat) (hd : works d x) (hx : group x = some g) (ht : group t = some g) :
        False := by
      have := (h.busy g).mpr ⟨d, x, hd, hx⟩
      rw [free g ht] at this
      cases this
    rcases hb with ⟨rfl, rfl⟩ | ⟨-, hb⟩
    · rcases hc with ⟨rfl, -⟩ | ⟨-, hc⟩
      · rfl
      · exact (fresh c v hc hv hu).elim
    · rcases hc with ⟨rfl, rfl⟩ | ⟨-, hc⟩
      · exact (fresh b u hb hu hv).elim
      · exact h.sole b c u v g hb hc hu hv

end Served

namespace Store

variable {s s' : Store} {m t : Nat}

/-- Nothing that a manager does at once makes a group busy or free. -/
theorem busy_call {c : Call} (hc : c.inScope s = true) :
    ((s.call c).manager m).busy = (s.manager m).busy := by
  rcases manager_call s c m with hm | ⟨d, rfl⟩ | ⟨config, rfl, hi⟩
  · rw [hm]
  · obtain ⟨_, _, _, _, _, hm, -⟩ := manager_manage_self hc
    rw [show s.call (.manager m d) = s.manage m d from rfl, hm]
  · rw [manager_make s config hi]

/-- However the work is settled, the group is free again. -/
theorem busy_settle (made : t < s.tickets.size) (o : Outcome) :
    ((s.settle m t o).1.manager m).busy =
      (s.ticket t).group.elim (s.manager m).busy (s.manager m).busy.erase := by
  obtain ⟨_, _, _, hm⟩ := released_settle (m := m) made o
  rw [hm]
  rfl

/-- The group of a ticket whose attempt begins was not busy and becomes so. -/
theorem Begins.busy (h : Begins m t s s') :
    (∀ g, (s.ticket t).group = some g → (s.manager m).busy.contains g = false) ∧
      (s'.manager m).busy = (s.ticket t).group.elim (s.manager m).busy (s.manager m).busy.insert := by
  constructor
  · intro g hg
    have hr := h.runnable
    simp only [Ticket.runnable, Ticket.blocked, hg] at hr
    simpa using (Bool.and_eq_true_iff.mp hr).2
  · obtain ⟨counts, -, hm⟩ := h.manager
    rw [hm, h.ticket]
    rfl

/-- No call gives a ticket another group. -/
theorem group_call (ht : t < s.tickets.size) (c : Call) :
    ((s.call c).ticket t).group = (s.ticket t).group := by
  by_cases hx : some t = s.touched c
  · rcases ticket_call hx with ⟨e, rfl, hk⟩ | hk <;> rw [hk]
    cases e with
    | job j => cases j <;> rfl
    | _ => rfl
  · exact Ticket.group_of_lasting ((keeps_call s c).ticket t ht hx)

end Store

namespace World

variable {w w' : World} {a m t : Nat}

theorem group_effect (ht : t < w.tickets.size) (mv : Move) :
    ((w.effect mv).ticket t).group = (w.ticket t).group := by
  cases mv with
  | call c =>
    rcases effect_call w c with ⟨-, he⟩ | he <;> rw [he]
    exact Store.group_call (s := w.toStore) ht c
  | _ => exact Ticket.group_of_lasting ((keeps_effect w _).ticket t ht (by simp [touched]))

theorem group_sequel (hs : Sequel a w w') (ht : t < w.tickets.size) :
    (w'.ticket t).group = (w.ticket t).group := by
  obtain ⟨x, hk, hx⟩ := keeps_sequel hs
  by_cases he : some t = x
  · obtain ⟨i, s, tally, -, hc, rfl⟩ := hx t he.symm
    rw [toStore_depart, (Store.claim_begins hc).ticket]
  · exact Ticket.group_of_lasting (hk.ticket t ht he)

/-- Manager `m` keeps the groups busy whose attempts it has in progress. -/
structure Serial (m : Nat) (w : World) : Prop where
  founded : w.Founded
  served : Served (w.manager m).busy (fun t => (w.ticket t).group) fun a t => w.Works a m t

namespace Serial

theorem start (m : Nat) (now : Int) : (start now).Serial m where
  founded := .start now
  served := .idle _ fun _ _ h => nomatch h

/-- Attempts and busy groups that do not change stay as they are. -/
theorem congr (h : w.Serial m) (hf : w'.Founded)
    (hb : (w'.manager m).busy = (w.manager m).busy)
    (hg : ∀ t < w.tickets.size, (w'.ticket t).group = (w.ticket t).group)
    (hw : ∀ a t, w'.Works a m t ↔ w.Works a m t) : w'.Serial m where
  founded := hf
  served := hb ▸ h.served.congr (fun a t ha => hg t (h.founded.works a m t ha)) hw

theorem effect (h : w.Serial m) (mv : Move) : (w.effect mv).Serial m := by
  have hf := h.founded.effect mv
  have hg (t : Nat) (ht : t < w.tickets.size) := group_effect ht mv
  cases mv with
  | call c =>
    refine h.congr hf ?_ hg fun _ _ => works_call h.founded c
    rcases effect_call w c with ⟨hc, he⟩ | he <;> rw [he]
    exact Store.busy_call hc
  | reply a r =>
    obtain ⟨jobs, hj, ⟨i, t, o, hwork, he, hw⟩ | ⟨he, hw⟩⟩ := works_reply w a r
    · have made := h.founded.works a i t hwork
      by_cases hi : i = m
      · subst hi
        have hb : ((w.effect (.reply a r)).manager i).busy =
            (w.ticket t).group.elim (w.manager i).busy (w.manager i).busy.erase := by
          rw [he]
          exact Store.busy_settle (s := { w.toStore with jobs }) made o
        have hserved := (h.served.leave hwork fun u hu => (hu.unique hwork).2).congr
          (fun b u hu => hg u (h.founded.works b i u hu.2)) fun b => hw b i
        exact ⟨hf, hb ▸ hserved⟩
      · refine h.congr hf ?_ hg fun b u =>
          (hw b m u).trans (works_apart fun hb => hi (hwork.unique hb).1)
        rw [he, Store.manager_settle (s := { w.toStore with jobs }) made o (Ne.symm hi)]
        rfl
    · exact h.congr hf (by rw [he]; rfl) hg fun b => hw b m
  | clock now => exact h.congr hf rfl hg fun _ _ => .rfl
  | elapse nanos => exact h.congr hf rfl hg fun _ _ => .rfl

theorem sequel (h : w.Serial m) (hs : Sequel a w w') : w'.Serial m := by
  have hf := h.founded.sequel hs
  have hg (t : Nat) (ht : t < w.tickets.size) := group_sequel hs ht
  cases hs with
  | wrote ls es he => exact h.congr hf rfl hg fun _ _ => .rfl
  | told j t next ha ht hn =>
    refine h.congr hf rfl hg fun b u => ?_
    refine works_ask_idle ?_ ha.2 ?_ <;> rfl
  | welcomed j t ha => exact h.congr hf rfl hg fun _ _ => works_ask_idle rfl ha.2 rfl
  | departed i t s tally ha hc =>
    have hb := Store.claim_begins hc
    by_cases hi : i = m
    · subst hi
      have hbusy : ((w.depart a i s t tally).manager i).busy =
          (w.ticket t).group.elim (w.manager i).busy (w.manager i).busy.insert := by
        rw [toStore_depart]
        exact hb.busy.2
      have hser := h.served.enter (fun u => not_works ha.2) hb.busy.1
      refine ⟨hf, hbusy ▸ hser.congr (fun b u hu => hg u ?_) fun b u => works_depart.trans ?_⟩
      · rcases hu with ⟨-, rfl⟩ | ⟨-, hu⟩
        · exact h.founded.store.known i u (.inl hb.queued)
        · exact h.founded.works b i u hu
      · simp only [Option.some.injEq, Prod.mk.injEq, true_and, @eq_comm _ t u]
    · exact h.congr hf (by rw [toStore_depart, hb.other m (Ne.symm hi)]) hg
        fun b u => works_depart_other hi ha.2

theorem sequels (h : w.Serial m) (hs : Sequels a w w') : w'.Serial m := by
  induction hs with
  | refl => exact h
  | tail _ hs ih => exact ih.sequel hs

theorem step (h : w.Serial m) (mv : Move) : (w.step mv).Serial m :=
  (h.effect mv).sequels (step_sequels h.founded mv)

end Serial

theorem Reachable.serial (h : Reachable w) (m : Nat) : w.Serial m :=
  h.induction (Serial.start m) fun _ mv hw => hw.step mv

/-- The busy groups of a manager are those of its attempts in progress, of which each group has
one at most. An attempt begins only while its group is free and makes it busy. When the attempt
is settled, with whatever outcome, its group is free again, and no other group changes. -/
theorem groups_serialized (h : Reachable w) (m : Nat) :
    (∀ g, (w.manager m).busy.contains g = true ↔
      ∃ a t, w.Works a m t ∧ (w.ticket t).group = some g) ∧
    (∀ a b t u g, w.Works a m t → w.Works b m u → (w.ticket t).group = some g →
      (w.ticket u).group = some g → a = b ∧ t = u) ∧
    (∀ s t g, w.claim m = some (s, t) →
      ((w.ticket t).group = some g → ∀ a u, w.Works a m u → (w.ticket u).group ≠ some g) ∧
      ((s.manager m).busy.contains g = true ↔
        (w.ticket t).group = some g ∨ (w.manager m).busy.contains g = true)) ∧
    -- whatever jobs have planned and loggers have written by then
    ∀ a t (s : Store) o g, w.Works a m t → s.managers = w.managers → s.tickets = w.tickets →
      (((s.settle m t o).1.manager m).busy.contains g = true ↔
        (w.ticket t).group ≠ some g ∧ (w.manager m).busy.contains g = true) := by
  have hs := h.serial m
  refine ⟨hs.served.busy, ?_, ?_, ?_⟩
  · intro a b t u g ha hb ht hu
    obtain rfl := hs.served.sole a b t u g ha hb ht hu
    exact ⟨rfl, (ha.unique hb).2⟩
  · intro s t g hc
    have hb := (Store.claim_begins hc).busy
    constructor
    · intro ht a u ha hu
      have hfree := hb.1 g ht
      rw [(hs.served.busy g).mpr ⟨a, u, ha, hu⟩] at hfree
      cases hfree
    · rw [hb.2, Names.contains_elim_insert]
  · intro a t s o g ha hm ht
    have made : t < s.tickets.size := ht ▸ hs.founded.works a m t ha
    have hg : s.manager m = w.manager m := congrArg (Registry.get · m) hm
    have hk : s.ticket t = w.ticket t := congrArg (Registry.get · t) ht
    rw [Store.busy_settle made, hg, hk, Names.contains_elim_erase]

/-- Attempts of two groups overlap, and a second member of the first group waits. -/
def nested : List Move :=
  [.call (.makeJob { id := "a", group := some "g" }),
    .call (.makeJob { id := "b", group := some "h" }),
    .call (.makeJob { id := "c", group := some "g" }), .call (.makeManager {}),
    .call (.manager 0 (.add (some 0))), .call (.manager 0 (.add (some 1))),
    .call (.manager 0 (.add (some 2))), .call (.manager 0 .runNext), .call (.manager 0 .runNext)]

theorem groups_serialized_nested :
    (∃ a t, ((start 0).run nested).Works a 0 t ∧
      (((start 0).run nested).ticket t).group = some "g") ∧
    ((start 0).run nested).claim 0 = none ∧
    ∀ o, ((((start 0).run nested).settle 0 0 o).1.manager 0).busy.contains "g" = false := by
  have h := groups_serialized ⟨0, nested, rfl⟩ 0
  refine ⟨(h.1 "g").mp (by decide), by decide, ?_⟩
  intro o
  apply Bool.eq_false_iff.mpr
  intro hg
  have hw : ((start 0).run nested).Works 7 0 0 := rfl
  exact ((h.2.2.2 7 0 _ o "g" hw rfl rfl).mp hg).1 (by decide)

end World

end Backlog
