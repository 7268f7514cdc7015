import Backlog.Proofs.Likeness
import Backlog.Proofs.Transfers
import Backlog.World.Edit

/-!
# Stores that follow each other

A client moves a process that others use as well, and makes the same move alone. The stores
follow each other if what the client has in the process is alike to all there is when it is
alone, and if nobody else's things have changed in the process since the move began. Every
operation of a manager keeps this up. A new ticket and a new stamp join the client's share.
-/

namespace Backlog

namespace Registry

variable {α : Type} [Inhabited α]

theorem size_modify_of_lt {a : Registry α} {i : Nat} (hi : i < a.size) (f : α → α) :
    (a.modify i f).size = a.size := by
  rw [size_modify]
  omega

/-- The objects of the client are those that its list picks from the registry. Each is related
to the object in its place when the client is alone; all others are as they were in `o`, when
the list was `l`. -/
structure Follows (R : α → α → Prop) (l : List Nat) (o : Registry α) (l' : List Nat)
    (a c : Registry α) : Prop extends Charts l o.size l' a.size c.size where
  alike : ∀ {i k}, Listed l' i k → R (a.get i) (c.get k)
  other : ∀ i, i ∉ l' → a.get i = o.get i

variable {R S : α → α → Prop} {l l' : List Nat} {o a c : Registry α} {i k : Nat}

theorem Follows.start : Follows R [] ({} : Registry α) [] {} {} where
  toCharts := Picks.charts ⟨rfl, .nil, nofun⟩
  alike := nofun
  other _ _ := rfl

theorem Follows.imp (hrs : ∀ {x y}, R x y → S x y) (h : Follows R l o l' a c) :
    Follows S l o l' a c := { h with alike := fun hi => hrs (h.alike hi) }

theorem Follows.modify (h : Follows R l o l' a c) (hi : Listed l' i k) {f g : α → α}
    (hf : R (f (a.get i)) (g (c.get k))) : Follows R l o l' (a.modify i f) (c.modify k g) where
  toCharts := by
    rw [size_modify_of_lt (h.lt_left hi), size_modify_of_lt (h.lt_right hi)]
    exact h.toCharts
  alike {j m} hj := by
    rw [get_modify, get_modify]
    by_cases he : j = i
    · rw [if_pos he, if_pos ((h.eq_iff hj hi).mp he)]
      exact hf
    · rw [if_neg he, if_neg (mt (h.eq_iff hj hi).mpr he)]
      exact h.alike hj
  other j hj := by
    rw [get_modify, if_neg fun he : j = i => hj (he ▸ hi.mem)]
    exact h.other j hj

/-- A new object joins the client's list. -/
theorem Follows.add (h : Follows R l o l' a c) {x y : α} (hxy : R x y) :
    Follows R l o (l' ++ [a.size]) (a.add x) (c.add y) where
  toCharts := by
    rw [size_add, size_add]
    exact h.toCharts.push
  alike {j m} hj := by
    rw [get_add, get_add]
    rcases listed_concat.mp hj with hj | ⟨rfl, rfl⟩
    · rw [if_neg (Nat.ne_of_lt (h.lt_left hj)), if_neg (Nat.ne_of_lt (h.lt_right hj))]
      exact h.alike hj
    · rw [if_pos rfl, if_pos h.length]
      exact hxy
  other j hj := by
    have hn : j ∉ l' ∧ j ≠ a.size := by simpa using hj
    rw [get_add, if_neg hn.2]
    exact h.other j hn.1

/-- The object that was added last stands where it does when the client is alone. -/
theorem Follows.listed_add (h : Follows R l o l' a c) :
    Listed (l' ++ [a.size]) a.size c.size := listed_concat.mpr (.inr ⟨rfl, h.length.symm⟩)

/-- What the client has so far is where its next move begins. -/
theorem Follows.anew (h : Follows R l o l' a c) : Follows R l' a l' a c :=
  { h with toCharts := h.toPicks.charts, other := fun _ _ => rfl }

/-- Another client's objects are as they were. -/
theorem Follows.bystander (h : Follows R l o l' a c) {m : List Nat} {d : Registry α}
    (hd : Follows S m o m o d) (ha : l.Disjoint m) : Follows S m a m a d where
  toCharts := (hd.toPicks.mono h.le).charts
  alike hi := by
    rw [h.other _ fun hj => h.disjoint hd.toPicks ha hj hi.mem]
    exact hd.alike hi
  other _ _ := rfl

end Registry

/-- A client with its share in a world, before it moves. -/
structure Footing where
  share : Share
  world : World

namespace Store

/-- The client has moved the process from its footing to `s`, and has the share `ρ` now; alone
it has moved to `u`. -/
structure Follows (b : Footing) (ρ : Share) (s u : Store) : Prop where
  now : s.now = b.world.now
  uptime : s.uptime = b.world.uptime
  sameNow : s.now = u.now
  sameUptime : s.uptime = u.uptime
  jobs : Registry.Follows (fun i j => i.bare = j.bare) b.share.jobs b.world.jobs ρ.jobs s.jobs
    u.jobs
  tickets : Registry.Follows (Ticket.Alike ρ) b.share.tickets b.world.tickets ρ.tickets s.tickets
    u.tickets
  managers : Registry.Follows (Manager.Alike ρ) b.share.managers b.world.managers ρ.managers
    s.managers u.managers
  stamps : Charts b.share.stamps b.world.nextStamp ρ.stamps s.nextStamp u.nextStamp

namespace Follows

variable {b : Footing} {ρ σ : Share} {s u : Store} {j j' t t' m m' : Nat}

theorem job (h : s.Follows b ρ u) (hj : Listed ρ.jobs j j') : (s.job j).bare = (u.job j').bare :=
  h.jobs.alike hj

theorem ticket (h : s.Follows b ρ u) (ht : Listed ρ.tickets t t') :
    (s.ticket t).Alike ρ (u.ticket t') := h.tickets.alike ht

theorem manager (h : s.Follows b ρ u) (hm : Listed ρ.managers m m') :
    (s.manager m).Alike ρ (u.manager m') := h.managers.alike hm

theorem time (h : s.Follows b ρ u) (hm : Listed ρ.managers m m') : s.time m = u.time m' := by
  simp only [Store.time, (h.manager hm).config, Store.read]
  split
  · exact h.sameNow
  · exact congrArg Int.ofNat h.sameUptime

theorem plan (h : s.Follows b ρ u) (ht : Listed ρ.tickets t t') : s.plan t = u.plan t' :=
  Job.eq_of_bare (h.job (h.ticket ht).job) Job.plan fun _ => rfl

/-- The client may move again. -/
theorem anew (h : s.Follows b ρ u) {w : World} (hw : w.toStore = s) : s.Follows ⟨ρ, w⟩ ρ u := by
  subst hw
  exact { h with
    now := rfl
    uptime := rfl
    jobs := h.jobs.anew
    tickets := h.tickets.anew
    managers := h.managers.anew
    stamps := h.stamps.toPicks.charts }

/-- Another client has nothing to do with the move. -/
theorem bystander {τ : Share} {w w' : World} {v : Store}
    (h : Follows ⟨ρ, w⟩ σ w'.toStore u) (hv : Follows ⟨τ, w⟩ τ w.toStore v) (ha : ρ.Apart τ) :
    Follows ⟨τ, w'⟩ τ w'.toStore v where
  now := rfl
  uptime := rfl
  sameNow := h.now.trans hv.sameNow
  sameUptime := h.uptime.trans hv.sameUptime
  jobs := h.jobs.bystander hv.jobs ha.jobs
  tickets := h.tickets.bystander hv.tickets ha.tickets
  managers := h.managers.bystander hv.managers ha.managers
  stamps := (hv.stamps.toPicks.mono h.stamps.le).charts

/-! ### Changes to one object -/

theorem onJob (h : s.Follows b ρ u) (hj : Listed ρ.jobs j j') {f g : Job → Job}
    (hf : (f (s.job j)).bare = (g (u.job j')).bare) : (s.onJob j f).Follows b ρ (u.onJob j' g) :=
  { h with jobs := h.jobs.modify hj hf }

theorem onTicket (h : s.Follows b ρ u) (ht : Listed ρ.tickets t t') {f g : Ticket → Ticket}
    (hf : (f (s.ticket t)).Alike ρ (g (u.ticket t'))) :
    (s.onTicket t f).Follows b ρ (u.onTicket t' g) :=
  { h with tickets := h.tickets.modify ht hf }

theorem onManager (h : s.Follows b ρ u) (hm : Listed ρ.managers m m') {f g : Manager → Manager}
    (hf : (f (s.manager m)).Alike ρ (g (u.manager m'))) :
    (s.onManager m f).Follows b ρ (u.onManager m' g) :=
  { h with managers := h.managers.modify hm hf }

/-- A change to the bare job is a change to the job. -/
theorem changeJob (h : s.Follows b ρ u) (hj : Listed ρ.jobs j j') {f : Job → Job}
    (hf : ∀ i, (f i).bare = f i.bare) : (s.onJob j f).Follows b ρ (u.onJob j' f) := by
  apply h.onJob hj
  rw [hf, hf, h.job hj]

/-- A change to the bare ticket is a change to the ticket. -/
theorem changeTicket (h : s.Follows b ρ u) (ht : Listed ρ.tickets t t') {f : Ticket → Ticket}
    (hf : ∀ k, (f k).bare = f k.bare) (hj : ∀ k, (f k).job = k.job)
    (hs : ∀ k, (f k).stamp = k.stamp) : (s.onTicket t f).Follows b ρ (u.onTicket t' f) := by
  have hk := h.ticket ht
  refine h.onTicket ht ⟨?_, ?_, ?_⟩
  · rw [hf, hf, hk.bare]
  · rw [hj, hj]
    exact hk.job
  · rw [hs, hs]
    exact hk.stamp

theorem cancelTicket (h : s.Follows b ρ u) (ht : Listed ρ.tickets t t') :
    (s.cancelTicket t).Follows b ρ (u.cancelTicket t') := by
  have h' : (s.onTicket t ({ · with cancelled := true })).Follows b ρ
      (u.onTicket t' ({ · with cancelled := true })) :=
    h.changeTicket ht (fun _ => rfl) (fun _ => rfl) fun _ => rfl
  exact h'.changeJob (h.ticket ht).job fun _ => rfl

theorem setContext (h : s.Follows b ρ u) (ht : Listed ρ.tickets t t') (logger logger' : Option Nat)
    (session session' : Int) :
    (s.setContext t logger session).Follows b ρ (u.setContext t' logger' session') :=
  h.onJob (h.ticket ht).job (h.job (h.ticket ht).job)

/-! ### New objects -/

theorem addJob (h : s.Follows b ρ u) (x : Job) :
    ∃ σ, ρ.Gains σ ∧ Listed σ.jobs s.jobs.size u.jobs.size ∧
      Follows b σ { s with jobs := s.jobs.add x } { u with jobs := u.jobs.add x } := by
  have hw : ρ.Gains { ρ with jobs := ρ.jobs ++ [s.jobs.size] } :=
    { Share.Gains.refl ρ with jobs := List.prefix_append .. }
  exact ⟨_, hw, h.jobs.listed_add, { h with
    jobs := h.jobs.add rfl
    tickets := h.tickets.imp hw.ticket
    managers := h.managers.imp hw.manager }⟩

theorem addTicket (h : s.Follows b ρ u) {x y : Ticket} (hxy : x.Alike ρ y) :
    ∃ σ, ρ.Gains σ ∧ Listed σ.tickets s.tickets.size u.tickets.size ∧
      Follows b σ { s with tickets := s.tickets.add x } { u with tickets := u.tickets.add y } := by
  have hw : ρ.Gains { ρ with tickets := ρ.tickets ++ [s.tickets.size] } :=
    { Share.Gains.refl ρ with tickets := List.prefix_append .. }
  exact ⟨_, hw, h.tickets.listed_add, { h with
    tickets := (h.tickets.imp hw.ticket).add (hw.ticket hxy)
    managers := h.managers.imp hw.manager }⟩

theorem establish (h : s.Follows b ρ u) (c : Config) :
    ∃ σ, ρ.Gains σ ∧ Listed σ.managers s.managers.size u.managers.size ∧
      (s.establish c).Follows b σ (u.establish c) := by
  have hw : ρ.Gains { ρ with managers := ρ.managers ++ [s.managers.size] } :=
    { Share.Gains.refl ρ with managers := List.prefix_append .. }
  refine ⟨_, hw, h.managers.listed_add, { h with
    tickets := h.tickets.imp hw.ticket
    managers := (h.managers.imp hw.manager).add ?_ }⟩
  exact ⟨rfl, ⟨.nil, fun _ => .none, rfl⟩, rfl, rfl, fun _ => .none, rfl, rfl, rfl⟩

/-- The ticket takes from its job what it takes alone. -/
theorem wrap (h : s.Follows b ρ u) {x y : Ticket} (hxy : x.Alike ρ y) :
    ∃ σ, ρ.Gains σ ∧ Listed σ.tickets s.tickets.size u.tickets.size ∧
      (s.wrap x).Follows b σ (u.wrap y) := by
  have hj := h.job hxy.job
  have hp : x.priority = y.priority := Ticket.eq_of_bare hxy.bare Ticket.priority fun _ => rfl
  have h' : (s.onJob x.job ({ · with priority := x.priority })).Follows b ρ
      (u.onJob y.job ({ · with priority := y.priority })) :=
    hp ▸ h.changeJob hxy.job fun _ => rfl
  refine h'.addTicket ⟨?_, hxy.job, hxy.stamp⟩
  change Ticket.mk 0 (s.job x.job).bare.id x.bare.priority x.bare.group x.bare.runs x.bare.created
    x.bare.notBefore 0 none (s.job x.job).bare.needsNetwork (s.job x.job).bare.tags
    x.bare.cancelled x.bare.successful x.bare.notified = _
  rw [hj, hxy.bare]
  rfl

theorem stampTicket (h : s.Follows b ρ u) (ht : Listed ρ.tickets t t') :
    ∃ σ, ρ.Gains σ ∧ (s.stampTicket t).Follows b σ (u.stampTicket t') := by
  have hk := h.ticket ht
  have hs := hk.stamp
  simp only [Store.stampTicket]
  generalize (s.ticket t).stamp = x, (u.ticket t').stamp = y at hs
  cases hs with
  | some _ => exact ⟨ρ, .refl ρ, h⟩
  | none =>
    have hw : ρ.Gains { ρ with stamps := ρ.stamps ++ [s.nextStamp] } :=
      { Share.Gains.refl ρ with stamps := List.prefix_append .. }
    have h' : Follows b { ρ with stamps := ρ.stamps ++ [s.nextStamp] }
        { s with nextStamp := s.nextStamp + 1 } { u with nextStamp := u.nextStamp + 1 } :=
      { h with
        tickets := h.tickets.imp hw.ticket
        managers := h.managers.imp hw.manager
        stamps := h.stamps.push }
    have hn : Listed (ρ.stamps ++ [s.nextStamp]) s.nextStamp u.nextStamp :=
      listed_concat.mpr (.inr ⟨rfl, h.stamps.length.symm⟩)
    exact ⟨_, hw, h'.onTicket (f := ({ · with stamp := some s.nextStamp }))
      (g := ({ · with stamp := some u.nextStamp })) ht ⟨hk.bare, hk.job, .some hn⟩⟩

/-! ### Custody -/

theorem push (h : s.Follows b ρ u) {q r : Queue} (hq : q.Alike ρ r) (ht : Listed ρ.tickets t t') :
    Option.Rel (fun x y => ∃ σ, ρ.Gains σ ∧ x.1.Follows b σ y.1 ∧ x.2.Alike σ y.2) (s.push q t)
      (u.push r t') := by
  have hid : (s.ticket t).id = (u.ticket t').id :=
    Ticket.eq_of_bare (h.ticket ht).bare Ticket.id fun _ => rfl
  simp only [Store.push, hid, hq.accepts]
  split
  · obtain ⟨σ, hw, h'⟩ := h.stampTicket ht
    have ht' := ht.mono hw.tickets
    exact .some ⟨σ, hw, h', (hw.queue hq).insert h'.stamps.toPicks h'.ticket ht'⟩
  · exact .none

theorem enlist (h : s.Follows b ρ u) (hm : Listed ρ.managers m m') (hj : Listed ρ.jobs j j') :
    Option.Rel (fun x y => ∃ σ, ρ.Gains σ ∧ Listed σ.tickets s.tickets.size u.tickets.size ∧
      x.Follows b σ y) (s.enlist m j) (u.enlist m' j') := by
  have hg := h.manager hm
  have hb := h.job hj
  have hid : (s.job j).id = (u.job j').id := Job.eq_of_bare hb Job.id fun _ => rfl
  simp only [Store.enlist, hg.accepting, hg.free, hid]
  split
  · exact .none
  obtain ⟨σ, hw, ht, h'⟩ := h.wrap (x := {
      job := j, priority := (s.job j).priority, group := (s.job j).group, created := s.time m
      notBefore := deadline (s.time m) (s.job j).delay, session := (s.manager m).session })
    (y := {
      job := j', priority := (u.job j').priority, group := (u.job j').group, created := u.time m'
      notBefore := deadline (u.time m') (u.job j').delay, session := (u.manager m').session })
    ⟨by
      rw [h.time hm]
      exact Job.eq_of_bare hb (fun j : Job => ({
        priority := j.priority, group := j.group, created := u.time m'
        notBefore := deadline (u.time m') j.delay } : Ticket)) fun _ => rfl, hj, .none⟩
  have hp := h'.push (hw.queue hg.queue) ht
  generalize (Store.wrap s _).push _ _ = x, (Store.wrap u _).push _ _ = y at hp
  cases hp with
  | none => exact .none
  | @some x y hxy =>
    obtain ⟨τ, hw', hs, hq⟩ := hxy
    have hw := hw.trans hw'
    have ht := ht.mono hw'.tickets
    refine .some ⟨τ, hw, ht, (hs.setContext ht ..).onManager (hm.mono hw.managers) ?_⟩
    have hg' := (hs.manager (hm.mono hw.managers)).forget (u.job j').id
    exact { hg' with
      queue := hq
      counts := congrArg (fun c : Counts => { c with added := c.added + 1 }) hg'.counts }

theorem claim (h : s.Follows b ρ u) (hm : Listed ρ.managers m m') :
    Option.Rel (fun x y => x.1.Follows b ρ y.1 ∧ Listed ρ.tickets x.2 y.2) (s.claim m)
      (u.claim m') := by
  have hg := h.manager hm
  have hr := hg.queue.ready? h.ticket (u.time m') (u.manager m').network (u.manager m').busy
  simp only [Store.claim, Manager.ready?, hg.network, hg.busy, h.time hm]
  generalize (s.manager m).queue.ready? .. = x, (u.manager m').queue.ready? .. = y at hr
  cases hr with
  | none => exact .none
  | @some t t' ht =>
    have hk := h.ticket ht
    have h' : (s.onTicket t fun k =>
        { k with runs := k.runs + 1, session := (s.manager m).session }).Follows b ρ
        (u.onTicket t' fun k => { k with runs := k.runs + 1, session := (u.manager m').session }) :=
      h.onTicket ht
        ⟨congrArg (fun k : Ticket => { k with runs := k.runs + 1 }) hk.bare, hk.job, hk.stamp⟩
    refine .some ⟨h'.onManager hm ?_, ht⟩
    have hg := h'.manager hm
    have hb := (h'.ticket ht).bare
    have hn := Ticket.eq_of_bare hb Ticket.runs fun _ => rfl
    exact { hg.begin hb ht with
      queue := hg.queue.take h'.ticket h'.tickets.toPicks ht
      counts := by dsimp only; rw [hn, hg.counts] }

/-- Both settle the same way, and the stores follow each other. -/
def Settled (b : Footing) (ρ : Share) (x y : Store × Except Fault Ending) : Prop :=
  x.2 = y.2 ∧ ∃ σ, ρ.Gains σ ∧ x.1.Follows b σ y.1

theorem finish (h : s.Follows b ρ u) (hm : Listed ρ.managers m m') (ht : Listed ρ.tickets t t')
    (status : Status) (tell : Bool) :
    Settled b ρ (s.finish m t status tell) (u.finish m' t' status tell) := by
  have hid := Ticket.eq_of_bare (h.ticket ht).bare Ticket.id fun _ => rfl
  refine ⟨rfl, ρ, .refl ρ, h.onManager hm ?_⟩
  rw [hid]
  exact (h.manager hm).finish ..

theorem retryDelay (h : s.Follows b ρ u) (hm : Listed ρ.managers m m')
    (ht : Listed ρ.tickets t t') : s.retryDelay m t = u.retryDelay m' t' := by
  have hr := Ticket.eq_of_bare (h.ticket ht).bare Ticket.runs fun _ => rfl
  simp only [Store.retryDelay, (h.manager hm).config, h.plan ht, hr]

theorem spread (h : s.Follows b ρ u) (hm : Listed ρ.managers m m') (ht : Listed ρ.tickets t t')
    (plan : Option RetryPlan) : (s.spread m t plan).Follows b ρ (u.spread m' t' plan) := by
  have hgroup := Ticket.eq_of_bare (h.ticket ht).bare Ticket.group fun _ => rfl
  have hd := Ticket.eq_of_bare (h.ticket ht).bare Ticket.notBefore fun _ => rfl
  simp only [Store.spread, hgroup, hd, Queue.delayGroup]
  split
  · split
    · have ho := (h.manager hm).queue.order
      exact { h with
        tickets := List.rel_foldl
          (fun _ _ ha _ _ hi => ha.modify hi ((ha.alike hi).delayMember ..)) h.tickets ho }
    · exact h
  · exact h

/-- A retry goes the same way, as what it asks of the old ticket is the same. -/
theorem retry (h : s.Follows b ρ u) (hm : Listed ρ.managers m m') (ht : Listed ρ.tickets t t') :
    Settled b ρ (s.retry m t) (u.retry m' t') := by
  have hk := h.ticket ht
  have hr := Ticket.eq_of_bare hk.bare Ticket.runs fun _ => rfl
  by_cases hn : (s.ticket t).runs < 0
  · simp only [Store.retry, renew_error hn, renew_error (hr ▸ hn)]
    exact ⟨rfl, ρ, .refl ρ, h⟩
  have hx : (s.renewal m t).Alike ρ (u.renewal m' t') := by
    refine ⟨?_, hk.job, .none⟩
    simp only [Store.renewal, h.time hm, h.retryDelay hm ht, h.plan ht]
    exact Ticket.eq_of_bare hk.bare (fun k : Ticket => ({
      priority := ((u.plan t').bind (·.priority)).getD k.priority, group := k.group
      runs := k.runs, created := k.created
      notBefore := deadline (u.time m') (u.retryDelay m' t') } : Ticket)) fun _ => rfl
  obtain ⟨σ, hw, hnew, h'⟩ := h.wrap hx
  have hg := h.manager hm
  have hp := h'.push (hw.queue hg.queue) hnew
  simp only [Store.retry, renew_eq_wrap hn, renew_eq_wrap (hr ▸ hn), hg.accepting, h.plan ht,
    h.retryDelay hm ht]
  have hend : Settled b ρ ((s.wrap (s.renewal m t)).finish m t .failed true)
      ((u.wrap (u.renewal m' t')).finish m' t' .failed true) := by
    obtain ⟨he, τ, hw', hf⟩ := h'.finish (hm.mono hw.managers) (ht.mono hw.tickets) .failed true
    exact ⟨he, τ, hw.trans hw', hf⟩
  cases (u.manager m').accepting with
  | false => exact hend
  | true =>
    simp only [↓reduceIte]
    generalize (s.wrap _).push _ _ = x, (u.wrap _).push _ _ = y at hp
    cases hp with
    | none => exact hend
    | some hx =>
      obtain ⟨τ, hw', hs, hq⟩ := hx
      have hm := hm.mono (hw.trans hw').managers
      refine ⟨rfl, τ, hw.trans hw', spread (hs.onManager hm ?_) hm (hnew.mono hw'.tickets) _⟩
      exact { hs.manager hm with queue := hq }

theorem settle (h : s.Follows b ρ u) (hm : Listed ρ.managers m m') (ht : Listed ρ.tickets t t')
    (o : Outcome) : Settled b ρ (s.settle m t o) (u.settle m' t' o) := by
  have h' : (s.onManager m (·.release (s.ticket t))).Follows b ρ
      (u.onManager m' (·.release (u.ticket t'))) :=
    h.onManager hm ((h.manager hm).release (h.ticket ht).bare)
  have hc := Ticket.eq_of_bare (h'.ticket ht).bare Ticket.cancelled fun _ => rfl
  have hp := h'.plan ht
  have hretry := h'.retry hm ht
  have hfinish := h'.finish hm ht
  simp only [Store.settle]
  cases o with
  | success =>
    have hs : (Store.onTicket _ t ({ · with successful := true })).Follows b ρ
        (Store.onTicket _ t' ({ · with successful := true })) :=
      h'.changeTicket ht (fun _ => rfl) (fun _ => rfl) fun _ => rfl
    exact hs.finish hm ht ..
  | cancelled => exact hfinish ..
  | runLimit => exact hfinish ..
  | other code => exact hfinish ..
  | again | declined =>
    dsimp only
    rw [hc, hp]
    split
    · exact hfinish ..
    · split
      · exact hfinish ..
      · exact hretry

/-- A cancellation meets the same. -/
inductive Withdrew (ρ : Share) : Withdrawal → Withdrawal → Prop
  | marked {t t' : Nat} (ht : Listed ρ.tickets t t') : Withdrew ρ (.marked t) (.marked t')
  | dropped {t t' : Nat} (ht : Listed ρ.tickets t t') : Withdrew ρ (.dropped t) (.dropped t')

theorem withdraw (h : s.Follows b ρ u) (hm : Listed ρ.managers m m') (id : String) :
    Option.Rel (fun x y => x.1.Follows b ρ y.1 ∧ Withdrew ρ x.2 y.2) (s.withdraw m id)
      (u.withdraw m' id) := by
  have hg := h.manager hm
  have hr := hg.running id
  have hq := hg.queue.remove h.stamps.toPicks h.ticket id
  simp only [Store.withdraw]
  generalize (s.manager m).running.find? id = x, (u.manager m').running.find? id = y at hr
  cases hr with
  | some ht => exact .some ⟨h.cancelTicket ht, .marked ht⟩
  | none =>
    generalize (s.manager m).queue.remove .. = x, (u.manager m').queue.remove .. = y at hq
    cases hq with
    | none => exact .none
    | some hx =>
      obtain ⟨ht, hq⟩ := hx
      have h' := h.cancelTicket ht
      refine .some ⟨h'.onManager hm ?_, .dropped ht⟩
      exact { (h'.manager hm).finish id .cancelled with queue := hq }

end Follows

end Store

end Backlog
