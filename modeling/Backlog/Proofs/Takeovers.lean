import Backlog.Proofs.Filing
import Backlog.Proofs.Rulings
import Mathlib.Data.List.Induction
import Mathlib.Data.List.ReduceOption

/-!
# What a manager takes over

A manager that is offered tickets for recovery takes over those that another session left behind,
unless it has their id already or takes it over from an earlier ticket of the list. What it takes
over gets its session and a stamp if it had none, and everything else stays as it is.
-/

namespace Backlog

namespace Store

variable {s s' s'' : Store} {m t : Nat} {us vs : List Nat} {ts : List (Option Nat)}

/-- The ticket is not cancelled and another session had it last. Manager `m` accepts work, and the
id neither runs there nor waits. -/
def Stale (s : Store) (m t : Nat) : Prop :=
  (s.ticket t).cancelled = false ∧ (s.ticket t).session ≠ (s.manager m).session ∧
    (s.manager m).accepting = true ∧ (s.manager m).running.find? (s.ticket t).id = none ∧
    ∀ u ∈ (s.manager m).queue.order, (s.ticket u).id ≠ (s.ticket t).id

instance : DecidablePred (s.Stale m) := fun _ => inferInstanceAs (Decidable (_ ∧ _))

/-- One more ticket is taken over, unless an earlier one has its id. -/
def takeNext (s : Store) (m : Nat) (us : List Nat) (t : Nat) : List Nat :=
  if s.Stale m t ∧ ∀ u ∈ us, (s.ticket u).id ≠ (s.ticket t).id then us ++ [t] else us

/-- The tickets of the list that manager `m` takes over, in order. -/
def takeovers (s : Store) (m : Nat) (ts : List (Option Nat)) : List Nat :=
  ts.reduceOption.foldl (s.takeNext m) []

/-- The tickets of the list that have no stamp yet. -/
def unstamped (s : Store) (us : List Nat) : List Nat :=
  us.filter fun u => (s.ticket u).stamp.isNone

/-- Manager `m` has taken over these tickets and nothing else has happened, lines apart. -/
structure TakesOver (m : Nat) (us : List Nat) (s s' : Store) : Prop where
  /-- The tickets wait, and what waited before does so in the same order. -/
  queued : (s'.manager m).queue.order.Perm (us ++ (s.manager m).queue.order)
  kept : (s.manager m).queue.order.Sublist (s'.manager m).queue.order
  manager : ∃ queue finished, s'.manager m = { s.manager m with
    queue, finished, counts := { (s.manager m).counts with
      recovered := (s.manager m).counts.recovered + us.length } }
  forgotten : ∀ id, (s'.manager m).finished.find? id =
    if ∃ u ∈ us, (s.ticket u).id = id then none else (s.manager m).finished.find? id
  other : ∀ i, i ≠ m → s'.manager i = s.manager i
  /-- Stamps that are missing are given in the order of the list. -/
  ticket : ∀ u, s'.ticket u = if u ∈ us then { s.ticket u with
      session := (s.manager m).session
      stamp := some ((s.ticket u).stamp.getD (s.nextStamp + (s.unstamped us).idxOf u)) }
    else s.ticket u
  nextStamp : s'.nextStamp = s.nextStamp + (s.unstamped us).length
  job : ∀ j, s'.job j = if ∃ u ∈ us, (s.ticket u).job = j then { s.job j with
      logger := some (s.manager m).logger, session := (s.manager m).session }
    else s.job j
  sizes : s'.tickets.size = s.tickets.size ∧ s'.jobs.size = s.jobs.size ∧
    s'.managers.size = s.managers.size
  aside : s'.queues = s.queues ∧ s'.lastSession = s.lastSession ∧ s'.now = s.now ∧
    s'.uptime = s.uptime

namespace TakesOver

theorem refl (m : Nat) (s : Store) : TakesOver m [] s s where
  queued := .refl _
  kept := .refl _
  manager := ⟨_, _, rfl⟩
  forgotten id := by simp
  other _ _ := rfl
  ticket u := by simp
  nextStamp := rfl
  job j := by simp
  sizes := ⟨rfl, rfl, rfl⟩
  aside := ⟨rfl, rfl, rfl, rfl⟩

/-- A ticket keeps all but its session and its stamp. -/
theorem same (h : TakesOver m us s s') (u : Nat) : (s'.ticket u).id = (s.ticket u).id ∧
    (s'.ticket u).job = (s.ticket u).job ∧ (s'.ticket u).cancelled = (s.ticket u).cancelled := by
  rw [h.ticket]
  split <;> exact ⟨rfl, rfl, rfl⟩

theorem unstamped_eq (h : TakesOver m us s s') (hd : ∀ v ∈ vs, v ∉ us) :
    s'.unstamped vs = s.unstamped vs :=
  List.filter_congr fun v hv => by rw [h.ticket, if_neg (hd v hv)]

/-- Tickets that have not been taken over are taken over next. -/
theorem trans (h : TakesOver m us s s') (h' : TakesOver m vs s' s'') (hd : ∀ v ∈ vs, v ∉ us) :
    TakesOver m (us ++ vs) s s'' := by
  obtain ⟨queue, finished, hm⟩ := h.manager
  obtain ⟨queue', finished', hm'⟩ := h'.manager
  have hsession : (s'.manager m).session = (s.manager m).session := by rw [hm]
  have hlogger : (s'.manager m).logger = (s.manager m).logger := by rw [hm]
  have hstamps : s.unstamped (us ++ vs) = s.unstamped us ++ s.unstamped vs := List.filter_append ..
  refine {
    queued := ?queued
    kept := h.kept.trans h'.kept
    manager := ⟨queue', finished', ?manager⟩
    forgotten := fun id => ?forgotten
    other := fun i hi => (h'.other i hi).trans (h.other i hi)
    ticket := fun u => ?ticket
    nextStamp := ?nextStamp
    job := fun j => ?job
    sizes := ⟨h'.sizes.1.trans h.sizes.1, h'.sizes.2.1.trans h.sizes.2.1,
      h'.sizes.2.2.trans h.sizes.2.2⟩
    aside := ⟨h'.aside.1.trans h.aside.1, h'.aside.2.1.trans h.aside.2.1,
      h'.aside.2.2.1.trans h.aside.2.2.1, h'.aside.2.2.2.trans h.aside.2.2.2⟩ }
  case queued =>
    refine h'.queued.trans ((h.queued.append_left vs).trans ?_)
    rw [← List.append_assoc]
    exact List.perm_append_comm.append_right _
  case manager => rw [hm', hm, List.length_append, Nat.add_assoc]
  case forgotten =>
    rw [h'.forgotten, h.forgotten]
    simp only [List.mem_append, or_and_right, exists_or, (h.same _).1]
    by_cases hv : ∃ u ∈ vs, (s.ticket u).id = id
    · rw [if_pos hv, if_pos (.inr hv)]
    · rw [if_neg hv]
      exact if_congr (by simp only [hv, or_false]) rfl rfl
  case ticket =>
    rw [h'.ticket, h.unstamped_eq hd, h.nextStamp, hsession, hstamps]
    by_cases hv : u ∈ vs
    · have hu : u ∉ us := hd u hv
      have hn : u ∉ s.unstamped us := fun hm => hu (List.mem_of_mem_filter hm)
      rw [if_pos hv, if_pos (List.mem_append_right _ hv), h.ticket, if_neg hu,
        List.idxOf_append_of_notMem hn, Nat.add_assoc]
    · rw [if_neg hv, h.ticket]
      by_cases hu : u ∈ us
      · rw [if_pos hu, if_pos (List.mem_append_left _ hu)]
        cases hs : (s.ticket u).stamp with
        | some i => rfl
        | none =>
          have hm : u ∈ s.unstamped us := List.mem_filter.mpr ⟨hu, by simp [hs]⟩
          rw [List.idxOf_append_of_mem hm]
      · rw [if_neg hu, if_neg fun hm => (List.mem_append.mp hm).elim hu hv]
  case nextStamp =>
    rw [h'.nextStamp, h.nextStamp, h.unstamped_eq hd, hstamps, List.length_append, Nat.add_assoc]
  case job =>
    rw [h'.job, h.job, hsession, hlogger]
    simp only [List.mem_append, or_and_right, exists_or, (h.same _).2.1]
    by_cases hv : ∃ u ∈ vs, (s.ticket u).job = j <;>
      by_cases hu : ∃ u ∈ us, (s.ticket u).job = j <;>
      simp only [hv, hu, or_true, or_false, if_true, if_false]

/-- What is still to be taken over, once some tickets have been. -/
theorem stale_iff (h : TakesOver m us s s') : s'.Stale m t ↔
    s.Stale m t ∧ ∀ u ∈ us, (s.ticket u).id ≠ (s.ticket t).id := by
  obtain ⟨queue, finished, hm⟩ := h.manager
  have hsession : (s'.manager m).session = (s.manager m).session := by rw [hm]
  have hacc : (s'.manager m).accepting = (s.manager m).accepting := by rw [hm]
  have hrun : (s'.manager m).running = (s.manager m).running := by rw [hm]
  simp only [Stale, h.same, hsession, hacc, hrun, h.queued.mem_iff, List.mem_append]
  by_cases ht : t ∈ us
  · refine iff_of_false (fun hs => ?_) fun hs => hs.2 t ht rfl
    have hne := hs.2.1
    rw [h.ticket, if_pos ht] at hne
    exact hne rfl
  · rw [h.ticket, if_neg ht]
    constructor
    · rintro ⟨hc, hf, ha, hr, hq⟩
      exact ⟨⟨hc, hf, ha, hr, fun u hu => hq u (.inr hu)⟩, fun u hu => hq u (.inl hu)⟩
    · rintro ⟨⟨hc, hf, ha, hr, hq⟩, hus⟩
      exact ⟨hc, hf, ha, hr, fun u hu => hu.elim (hus u) (hq u)⟩

end TakesOver

theorem Filed.free_iff (h : s.Filed m) {id : String} : (s.manager m).free id = true ↔
    (s.manager m).running.find? id = none ∧
      ∀ u ∈ (s.manager m).queue.order, (s.ticket u).id ≠ id := by
  rw [Manager.free_iff, Option.eq_none_iff_forall_ne_some]
  rw [Option.eq_none_iff_forall_ne_some (o := (s.manager m).queue.find? id)]
  simp only [ne_eq, h.indexed.find, not_and]

/-- A ticket that is not to be taken over is left as it is. -/
theorem reclaim_of_not_stale (h : s.Filed m) (hs : ¬s.Stale m t) :
    (s.reclaim m t).1 = s ∧ ∀ stale, (s.reclaim m t).2 ≠ .requeued stale := by
  rcases reclaim_eq s m t with he | ⟨⟨hc, ha, hf⟩, w, next, -, -, he⟩
  · exact he
  · obtain ⟨hr, hq⟩ := h.free_iff.mp hf
    refine absurd ⟨hc, fun hown => ?_, ha, hr, hq⟩ hs
    rw [reclaim_own hown] at he
    cases (Prod.mk.inj he).2

/-- What becomes of a ticket that is to be taken over. -/
theorem reclaim_eq_of_stale (h : s.Filed m) (hs : s.Stale m t) :
    ∃ next, next = (s.onTicket t ({ · with session := (s.manager m).session })).stampTicket t ∧
      (s.reclaim m t).1 = (next.setContext t (some (s.manager m).logger)
        (s.manager m).session).onManager m fun g => { g.forget (s.ticket t).id with
          queue := (s.manager m).queue.insert next.ticket t
          counts := { g.counts with recovered := g.counts.recovered + 1 } } := by
  obtain ⟨hc, hforeign, ha, hr, hq⟩ := hs
  have hnew := reclaim_stale hc hforeign h.opened
  rw [ha, h.free_iff.mpr ⟨hr, hq⟩] at hnew
  rcases reclaim_eq s m t with ⟨-, hn⟩ | ⟨-, w, next, rfl, hnext, he⟩
  · exact absurd hnew (hn _)
  · exact ⟨next, hnext, by rw [he]⟩

/-- A ticket is signed, and stamped if it has to be. -/
theorem sign_eq (s : Store) (t : Nat) (session : Int) : ∃ tickets n,
    (s.onTicket t ({ · with session })).stampTicket t =
      { s with tickets, nextStamp := s.nextStamp + n } ∧
    n = (s.unstamped [t]).length ∧ (t < s.tickets.size → tickets.size = s.tickets.size) ∧
    ∀ u, tickets.get u = if u = t then { s.ticket u with
      session, stamp := some ((s.ticket u).stamp.getD s.nextStamp) } else s.ticket u := by
  have hw (u : Nat) : (s.onTicket t ({ · with session })).ticket u =
      if u = t then { s.ticket t with session } else s.ticket u := ticket_onTicket ..
  have hk := ticket_stampTicket_eq (s.onTicket t ({ · with session })) t
  have hn := nextStamp_stampTicket (s.onTicket t ({ · with session })) t
  have hz (ht : t < s.tickets.size) := size_stampTicket
    (s := s.onTicket t ({ · with session })) (t := t) (by rwa [size_onTicket ht])
  obtain ⟨r, hr⟩ : ∃ r, r = (s.onTicket t ({ · with session })).stampTicket t := ⟨_, rfl⟩
  rw [← hr] at hk hn hz ⊢
  have he : r = { s with tickets := r.tickets, nextStamp := r.nextStamp } := by
    rw [hr]
    exact stampTicket_eq ..
  refine ⟨r.tickets, _, ?_, rfl, fun ht => (hz ht).trans (size_onTicket ht), fun u => ?_⟩
  · rw [he, hn, hw, if_pos rfl, unstamped, List.filter_singleton]
    cases hs : (s.ticket t).stamp <;> rfl
  · refine (hk u).trans ?_
    rw [hw]
    split
    · rename_i hu
      subst hu
      rfl
    · rfl

/-- A ticket that is to be taken over is. -/
theorem reclaim_of_stale (h : s.Filed m) (hf : s.Founded) (ht : t < s.tickets.size)
    (hm : m < s.managers.size) (hs : s.Stale m t) : TakesOver m [t] s (s.reclaim m t).1 := by
  obtain ⟨next, hnext, hr⟩ := reclaim_eq_of_stale h hs
  obtain ⟨tickets, n, he, hn, hsize, hk⟩ := sign_eq s t (s.manager m).session
  rw [he] at hnext
  obtain ⟨r, hr'⟩ : ∃ r, r = (s.reclaim m t).1 := ⟨_, rfl⟩
  rw [← hr'] at hr ⊢
  have hnt (u : Nat) : next.ticket u = tickets.get u := by rw [hnext]; rfl
  have hold (u : Nat) (hu : u ∈ (s.manager m).queue.order) : next.ticket u = s.ticket u := by
    rw [hnt, hk, if_neg]
    rintro rfl
    exact hs.2.2.2.2 u hu rfl
  have hcontains : (s.manager m).queue.index.contains (next.ticket t).id = false := by
    have hfree := (Manager.free_iff.mp (h.free_iff.mpr hs.2.2.2)).2
    rw [hnt, hk, if_pos rfl, Table.contains, show (s.manager m).queue.index.find? _ = none from hfree]
    rfl
  have hrm : r.manager m = { (s.manager m).forget (s.ticket t).id with
      queue := (s.manager m).queue.insert next.ticket t
      counts := { (s.manager m).counts with recovered := (s.manager m).counts.recovered + 1 } } := by
    rw [hr, manager_onManager, if_pos rfl, manager_setContext, hnext]
    rfl
  have hjob : (next.ticket t).job = (s.ticket t).job := by rw [hnt, hk, if_pos rfl]
  refine {
    queued := ?queued
    kept := ?kept
    manager := ⟨_, _, hrm⟩
    forgotten := fun id => ?forgotten
    other := fun i hi => ?other
    ticket := fun u => ?ticket
    nextStamp := ?nextStamp
    job := fun j => ?job
    sizes := ?sizes
    aside := ?aside }
  case queued =>
    rw [hrm]
    exact (h.indexed.congr fun u hu => by rw [hold u hu]).insert_perm hcontains
  case kept =>
    rw [hrm]
    exact sublist_insertOrdered ..
  case forgotten =>
    rw [hrm]
    refine (Table.find?_erase ..).trans (if_congr ?_ rfl rfl)
    simp only [List.mem_singleton, exists_eq_left]
    exact eq_comm
  case other =>
    rw [hr, manager_onManager, if_neg hi, hnext]
    rfl
  case ticket =>
    rw [hr]
    change next.ticket u = _
    rw [hnt, hk]
    simp only [List.mem_singleton]
    split
    · rename_i hu
      subst hu
      cases hst : (s.ticket u).stamp with
      | some i => rfl
      | none => simp [unstamped, hst]
    · rfl
  case nextStamp =>
    rw [hr]
    change next.nextStamp = _
    rw [hnext, hn]
  case job =>
    rw [hr]
    change (next.onJob (next.ticket t).job _).job j = _
    rw [job_onJob, hjob, hnext]
    simp only [List.mem_singleton, exists_eq_left]
    by_cases hj : j = (s.ticket t).job
    · subst hj
      rw [if_pos rfl, if_pos rfl]
      rfl
    · rw [if_neg hj, if_neg (Ne.symm hj)]
      rfl
  case sizes =>
    have hjz := hf.job t ht
    rw [hr]
    simp only [onManager, setContext, onJob, Registry.size_modify, hjob]
    rw [hnext]
    refine ⟨hsize ht, ?_, ?_⟩ <;> dsimp only <;> omega
  case aside =>
    rw [hr, hnext]
    exact ⟨rfl, rfl, rfl, rfl⟩

theorem takeovers_append_some (s : Store) (m : Nat) (ts : List (Option Nat)) (t : Nat) :
    s.takeovers m (ts ++ [some t]) = s.takeNext m (s.takeovers m ts) t := by
  simp [takeovers, List.reduceOption_append, List.foldl_append, List.reduceOption_cons_of_some]

/-- Whatever is taken over was stale, and in the list. -/
theorem stale_of_mem (ht : t ∈ s.takeovers m ts) : s.Stale m t ∧ some t ∈ ts := by
  simp only [takeovers] at ht
  suffices ∀ us vs : List Nat, t ∈ us.foldl (s.takeNext m) vs → t ∈ vs ∨ s.Stale m t ∧ t ∈ us by
    obtain hn | ⟨hs, hm⟩ := this _ _ ht
    · cases hn
    · exact ⟨hs, List.reduceOption_mem_iff.mp hm⟩
  intro us
  induction us with
  | nil => exact fun vs h => .inl h
  | cons u us ih =>
    intro vs h
    rcases ih _ h with h | ⟨hs, hm⟩
    · simp only [takeNext] at h
      split at h
      · rename_i hs
        rcases List.mem_append.mp h with h | h
        · exact .inl h
        · obtain rfl := List.mem_singleton.mp h
          exact .inr ⟨hs.1, List.mem_cons_self⟩
      · exact .inl h
    · exact .inr ⟨hs, List.mem_cons_of_mem _ hm⟩

theorem takeovers_append_none (s : Store) (m : Nat) (ts : List (Option Nat)) :
    s.takeovers m (ts ++ [none]) = s.takeovers m ts := by
  simp [takeovers, List.reduceOption_append, List.reduceOption_cons_of_none]

/-- Once some tickets have been taken over, the next one is judged by what there is then. -/
theorem TakesOver.takeNext_eq (h : TakesOver m us s s') (t : Nat) :
    s.takeNext m us t = us ++ if s'.Stale m t then [t] else [] := by
  rw [takeNext, if_congr h.stale_iff.symm rfl rfl]
  split
  · rfl
  · rw [List.append_nil]

/-- A manager that goes through a list takes over those that it should. -/
theorem recover_takesOver (h : s.Filed m) (hf : s.Founded) (hm : m < s.managers.size)
    (hts : ∀ t ∈ ts, t.all (· < s.tickets.size) = true) :
    (s.manage m (.recover ts)).Filed m ∧ (s.manage m (.recover ts)).Founded ∧
      TakesOver m (s.takeovers m ts) s (s.manage m (.recover ts)) := by
  induction ts using List.reverseRecOn with
  | nil => exact ⟨h, hf, .refl m s⟩
  | append_singleton ts x ih =>
    obtain ⟨hfiled, hfounded, htakes⟩ := ih fun t ht => hts t (List.mem_append_left _ ht)
    cases x with
    | none =>
      rw [takeovers_append_none]
      have he : s.manage m (.recover (ts ++ [none])) = s.manage m (.recover ts) :=
        List.foldl_append
      rw [he]
      exact ⟨hfiled, hfounded, htakes⟩
    | some t =>
      have he : s.manage m (.recover (ts ++ [some t])) =
          ((s.manage m (.recover ts)).reclaim m t).1 := List.foldl_append
      rw [takeovers_append_some, htakes.takeNext_eq, he]
      have ht : t < (s.manage m (.recover ts)).tickets.size := by
        rw [htakes.sizes.1]
        simpa using hts (some t) (by simp)
      split
      · rename_i hs
        have hone := reclaim_of_stale hfiled hfounded ht (htakes.sizes.2.2 ▸ hm) hs
        refine ⟨?_, hfounded.reclaim ht, htakes.trans hone fun v hv hu => ?_⟩
        · rcases reclaim_cases _ m ht with ⟨he, -⟩ | ⟨-, hi, -⟩
          · rwa [he]
          · exact hfiled.takesIn hi
        · rw [List.mem_singleton.mp hv] at hu
          exact (htakes.stale_iff.mp hs).2 t hu rfl
      · rename_i hs
        rw [List.append_nil, (reclaim_of_not_stale hfiled hs).1]
        exact ⟨hfiled, hfounded, htakes⟩

end Store

namespace World

variable {w w' : World} {m : Nat} {ts : List (Option Nat)}

/-- The number that recovery returns grows with what the manager has recovered. -/
theorem recoverOne_counts (m : Nat) (p : World × Nat) (x : Option Nat) :
    (recoverOne m p x).2 + (p.1.manager m).counts.recovered =
      p.2 + ((recoverOne m p x).1.manager m).counts.recovered := by
  obtain ⟨w, n⟩ := p
  have note (w : World) (level : Level) (id message : String) (fields : List (String × String)) :
      (w.note m level id message fields).manager m = w.manager m := by
    obtain ⟨ls, es, -, hw⟩ := wrote_note (a := 0) w m level id message fields
    rw [hw]
    rfl
  cases x with
  | none => rfl
  | some t =>
    simp only [recoverOne]
    rcases Store.reclaim_eq w.toStore m t with ⟨he, hn⟩ | ⟨-, v, next, hv, hnext, he⟩
    · cases hr : w.reclaim m t with
      | mk s r =>
        cases r with
        | ignored => rfl
        | refused =>
          dsimp only
          rw [note]
        | requeued stale =>
          rw [hr] at hn
          exact absurd rfl (hn stale)
    · rw [he]
      dsimp only
      rw [note]
      have hm : next.manager m = w.manager m := by
        rw [hnext, Store.manager_stampTicket, hv]
        rfl
      simp only [Store.manager_onManager, Store.manager_setContext, hm, if_true]
      omega

theorem recover_counts (m : Nat) (ts : List (Option Nat)) (p : World × Nat) :
    (ts.foldl (recoverOne m) p).2 + (p.1.manager m).counts.recovered =
      p.2 + ((ts.foldl (recoverOne m) p).1.manager m).counts.recovered := by
  induction ts generalizing p with
  | nil => rfl
  | cons x ts ih =>
    have h₁ := recoverOne_counts m p x
    have h₂ := ih (recoverOne m p x)
    rw [List.foldl_cons]
    omega

/-- Manager `m` was offered the tickets of the list for recovery. -/
structure Recovers (m : Nat) (ts : List (Option Nat)) (w w' : World) : Prop where
  takes : Store.TakesOver m (w.takeovers m ts) w.toStore w'.toStore
  /-- A ticket is taken over if it should be at its turn. -/
  judged : ∀ before x after, ts = before ++ x :: after →
    w.takeovers m (before ++ [x]) = w.takeovers m before ++
      x.toList.filter ((w.step (.call (.manager m (.recover before)))).Stale m ·)
  /-- One that should not be changes nothing at its turn, lines apart. -/
  passed : ∀ before x after, ts = before ++ x :: after →
    (∀ t ∈ x, ¬(w.step (.call (.manager m (.recover before)))).Stale m t) →
    ∃ ls, (w.step (.call (.manager m (.recover (before ++ [x]))))).toStore =
      (w.step (.call (.manager m (.recover before)))).toStore.logging ls
  /-- The client is told how many were, and no hook is called. -/
  returned : ∃ es, (∀ e ∈ es, ∃ l x, e = .logged l x) ∧
    w'.history = .returned w.calls (.count (w.takeovers m ts).length) :: (es ++ w.history)
  waits : w'.pending = w.pending
  size : (w'.manager m).queue.size = (w.manager m).queue.size + (w.takeovers m ts).length
  /-- What waits already, or runs under its id, is left alone together with its job. -/
  apart : ∀ u, u ∈ (w.manager m).queue.order ∨
    (w.manager m).running.find? (w.ticket u).id = some u →
    u ∉ w.takeovers m ts ∧ w'.ticket u = w.ticket u ∧
      w'.job (w.ticket u).job = w.job (w.ticket u).job

/-- A call for recovery leaves what the manager makes of the list, lines apart. -/
theorem toStore_recover (hc : (Call.manager m (.recover ts)).inScope w.toStore = true) :
    ∃ ls, (w.step (.call (.manager m (.recover ts)))).toStore =
      (w.manage m (.recover ts)).logging ls := by
  obtain ⟨ls, es, -, hu⟩ := wrote_recovered { w with calls := w.calls + 1 } w.calls m ts
  have hstep : w.step (.call (.manager m (.recover ts))) =
      World.recover { w with calls := w.calls + 1 } w.calls m ts := if_pos hc
  exact ⟨ls, by rw [hstep, hu]; rfl⟩

/-- The objects that the beginning of a list names exist if those of the list do. -/
theorem inScope_of_append {before after : List (Option Nat)}
    (hc : (Call.manager m (.recover (before ++ after))).inScope w.toStore = true) :
    (Call.manager m (.recover before)).inScope w.toStore = true := by
  simp only [Call.inScope, Bool.and_eq_true, decide_eq_true_eq, List.all_eq_true] at hc ⊢
  exact ⟨hc.1, fun t ht => hc.2 t (List.mem_append_left _ ht)⟩

/-- A ticket that is not to be taken over at its turn changes nothing. -/
theorem toStore_passed (hw : w.Filed m) (hf : w.Founded) {x : Option Nat}
    (hc : (Call.manager m (.recover (ts ++ [x]))).inScope w.toStore = true)
    (hx : ∀ t ∈ x, ¬(w.step (.call (.manager m (.recover ts)))).Stale m t) :
    ∃ ls, (w.step (.call (.manager m (.recover (ts ++ [x]))))).toStore =
      (w.step (.call (.manager m (.recover ts)))).toStore.logging ls := by
  have hts := inScope_of_append hc
  obtain ⟨ls, hs⟩ := toStore_recover hts
  obtain ⟨ls', hs'⟩ := toStore_recover hc
  simp only [Call.inScope, Bool.and_eq_true, decide_eq_true_eq] at hts
  obtain ⟨hfiled, -, -⟩ := Store.recover_takesOver hw hf.store hts.1 (List.all_eq_true.mp hts.2)
  have hsame : w.manage m (.recover (ts ++ [x])) = w.manage m (.recover ts) := by
    have hfold : w.manage m (.recover (ts ++ [x])) =
        x.elim (w.manage m (.recover ts)) fun t => ((w.manage m (.recover ts)).reclaim m t).1 := by
      cases x <;> exact List.foldl_append
    rw [hfold]
    cases x with
    | none => rfl
    | some t =>
      refine (Store.reclaim_of_not_stale hfiled fun h => hx t rfl ?_).1
      rw [hs]
      exact h
  refine ⟨ls', ?_⟩
  rw [hs', hs, hsame]
  rfl

/-- What a call for recovery comes to. -/
theorem step_takesOver (hw : w.Filed m) (hf : w.Founded)
    (hc : (Call.manager m (.recover ts)).inScope w.toStore = true) :
    Store.TakesOver m (w.takeovers m ts) w.toStore
        (w.step (.call (.manager m (.recover ts)))).toStore ∧
      (∃ es, (∀ e ∈ es, ∃ l x, e = .logged l x) ∧
        (w.step (.call (.manager m (.recover ts)))).history =
          .returned w.calls (.count (w.takeovers m ts).length) :: (es ++ w.history)) ∧
      (w.step (.call (.manager m (.recover ts)))).pending = w.pending := by
  simp only [Call.inScope, Bool.and_eq_true, decide_eq_true_eq] at hc
  obtain ⟨-, -, htakes⟩ := Store.recover_takesOver hw hf.store hc.1 (List.all_eq_true.mp hc.2)
  obtain ⟨p, hp⟩ : ∃ p, p = ts.foldl (recoverOne m) ({ w with calls := w.calls + 1 }, 0) := ⟨_, rfl⟩
  have hstep : w.step (.call (.manager m (.recover ts))) = p.1.give w.calls (.count p.2) := by
    rw [hp]
    exact if_pos (by simpa [Call.inScope] using hc)
  have hlogged : Logged { w with toStore := w.manage m (.recover ts), calls := w.calls + 1 } p.1 :=
    hp ▸ logged_of_wrote fun a => wrote_recover a m ts _ 0
  have hcount : p.2 + (w.manager m).counts.recovered = (p.1.manager m).counts.recovered := by
    have := recover_counts m ts ({ w with calls := w.calls + 1 }, 0)
    rw [← hp, Nat.zero_add] at this
    exact this
  obtain ⟨ls, es, he, hu⟩ := hlogged
  have hlength : p.2 = (w.takeovers m ts).length := by
    obtain ⟨queue, finished, hm⟩ := htakes.manager
    have hr : (p.1.manager m).counts.recovered =
        (w.manager m).counts.recovered + (w.takeovers m ts).length := by
      rw [hu]
      exact congrArg (fun g : Manager => g.counts.recovered) hm
    omega
  rw [hstep, hlength, hu]
  exact ⟨⟨htakes.queued, htakes.kept, htakes.manager, htakes.forgotten, htakes.other, htakes.ticket,
    htakes.nextStamp, htakes.job, htakes.sizes, htakes.aside⟩, ⟨es, he, rfl⟩, rfl⟩

/-- A manager that is offered tickets for recovery takes over those that it should and leaves the
rest alone, if no ticket that waits for it was renamed. -/
theorem recover_takes_over (h : ReachableBy (filed m) w)
    (hc : (Call.manager m (.recover ts)).inScope w.toStore = true)
    (hw' : w' = w.step (.call (.manager m (.recover ts)))) : w.Recovers m ts w' := by
  subst hw'
  obtain ⟨hf, hw⟩ := h.filed
  obtain ⟨htakes, hreturned, hwaits⟩ := step_takesOver hw hf hc
  have hscope := hc
  simp only [Call.inScope, Bool.and_eq_true, decide_eq_true_eq, List.all_eq_true] at hscope
  refine ⟨htakes, ?_, ?_, hreturned, hwaits, ?_, fun u hu => ?_⟩
  · rintro before x after rfl
    have hbefore := (step_takesOver hw hf (inScope_of_append hc)).1
    cases x with
    | none =>
      rw [Store.takeovers_append_none]
      exact (List.append_nil _).symm
    | some t =>
      rw [Store.takeovers_append_some, hbefore.takeNext_eq, Option.toList_some, List.filter_singleton]
      simp only [cond_eq_ite, decide_eq_true_eq]
  · rintro before x after rfl hx
    rw [List.append_cons] at hc
    exact toStore_passed hw hf (inScope_of_append hc) hx
  · have hq := htakes.queued.length_eq
    rw [List.length_append, Nat.add_comm] at hq
    exact hq
  · have huz : u < w.tickets.size := hf.store.known m u (hu.imp_right fun hr => .inr ⟨_, hr⟩)
    -- a stale ticket has an id that neither waits nor runs
    have hne (v : Nat) (hv : v ∈ w.takeovers m ts) : (w.ticket v).id ≠ (w.ticket u).id := by
      intro hid
      have hs := (Store.stale_of_mem hv).1.2.2.2
      rcases hu with hu | hr
      · exact hs.2 u hu hid.symm
      · rw [hid, hr] at hs
        cases hs.1
    have hn : u ∉ w.takeovers m ts := fun hm => hne u hm rfl
    refine ⟨hn, by rw [htakes.ticket, if_neg hn], ?_⟩
    rw [htakes.job, if_neg]
    rintro ⟨v, hv, hj⟩
    have hvz : v < w.tickets.size := by simpa using hscope.2 _ (Store.stale_of_mem hv).2
    apply hne v hv
    rw [hf.store.named v hvz, hf.store.named u huz, hj]

/-- A manager that has job "b" waiting, and tickets that other sessions left behind: two for job
"a", one for "b", a cancelled one for "c", and one for "d". -/
def leftBehind : World := (start 0).run
  [.call (.makeManager {}), .call (.makeJob { id := "a" }), .call (.makeJob { id := "b" }),
    .call (.makeJob { id := "c" }), .call (.makeJob { id := "d" }),
    .call (.manager 0 (.add (some 1))),
    .call (.build { job := some 0, priority := some 0, session := some 7, created := some 0 }),
    .call (.build { job := some 0, priority := some 0, session := some 8, created := some 0 }),
    .call (.build { job := some 1, priority := some 0, session := some 7, created := some 0 }),
    .call (.build { job := some 2, priority := some 0, session := some 7, created := some 0 }),
    .call (.editTicket 4 .cancel),
    .call (.build { job := some 3, priority := some 0, session := some 9, created := some 0 }),
    .call (.editTicket 5 (.stamp 5))]

/-- What is offered to it, with nothing and a ticket that is offered twice among it. -/
def mixture : List (Option Nat) := [none, some 1, some 1, some 2, some 3, some 4, some 5]

/-- The manager takes over the first ticket for "a", which had no stamp, and the one for "d". -/
theorem recover_takes_over_mixed :
    leftBehind.takeovers 0 mixture = [1, 5] ∧
      (leftBehind.step (.call (.manager 0 (.recover mixture)))).ticket 1 =
        { leftBehind.ticket 1 with session := 1, stamp := some 2 } ∧
      (leftBehind.step (.call (.manager 0 (.recover mixture)))).history.head? =
        some (.returned 13 (.count 2)) := by
  have h : ReachableBy (filed 0) leftBehind := ⟨0, _, by simp only [Along, filed, and_self], rfl⟩
  have hc : (Call.manager 0 (.recover mixture)).inScope leftBehind.toStore = true := by
    decide +kernel
  have hr := recover_takes_over h hc rfl
  have ht : leftBehind.takeovers 0 mixture = [1, 5] := by decide +kernel
  obtain ⟨es, -, hh⟩ := hr.returned
  have hk := hr.takes.ticket 1
  rw [ht] at hh hk
  refine ⟨ht, hk.trans ?_, congrArg List.head? hh⟩
  rfl

end World

end Backlog
